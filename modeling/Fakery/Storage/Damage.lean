import Fakery.Storage.Checkpoints
import Mathlib.Data.List.Basic
import Mathlib.Data.Set.Function

/-! What a manifest gives back when chunk objects are altered or missing afterwards. -/
namespace Fakery.Storage

/-- The store behind a writer whose puts all succeed. `moments` notes, after every put, how many
manifests have been put and the objects. -/
structure Written where
  objects : Objects
  manifests : ℕ := 0
  moments : List (ℕ × Objects)

namespace Written

def counted (s : Written) : Key → ℕ
  | .manifest _ => s.manifests + 1
  | _ => s.manifests

def put (s : Written) (key : Key) (object : Object) : Written where
  objects := Function.update s.objects key (some object)
  manifests := s.counted key
  moments := s.moments ++ [(s.counted key, Function.update s.objects key (some object))]

end Written

section code

variable (bucket : String) (sha256 : Bytes → String)

def storing : BlobStore (StateM Written) where
  put key object := ExceptT.mk fun s => (.ok ⟨bucket, key⟩, s.put key object)
  get key := ExceptT.mk fun s => match s.objects key with
    | some object => (.ok object, s)
    | none => (.error (), s)

def appendAll (w : CheckpointWriter) : List Bytes → StateM Written CheckpointWriter
  | [] => pure w
  | data :: blocks => do
    let (_, w) ← w.append (storing bucket) sha256 data
    appendAll w blocks

/-- A new writer of the bot appends the blocks to what is stored already. -/
def written (objects : Objects) (bot : ℕ) (blocks : List Bytes) : Written :=
  (appendAll bucket sha256 { botId := bot } blocks { objects, moments := [(0, objects)] }).2

end code

/-- Afterwards, chunk objects are altered or missing. -/
structure Damages (before after : Objects) : Prop where
  chunk : ∀ bot n, after (.chunk bot n) = before (.chunk bot n) ∨ after (.chunk bot n) = none ∨
    ∃ data, after (.chunk bot n) = some (.bytes data)
  other : ∀ key, (∀ bot n, key ≠ .chunk bot n) → after key = before key

section damage

variable (bot : ℕ) (before after : Objects)

def Damaged (n : ℕ) : Prop := after (.chunk bot n) ≠ before (.chunk bot n)

instance (n : ℕ) : Decidable (Damaged bot before after n) :=
  inferInstanceAs (Decidable (_ ≠ _))

/-- The blocks, numbered from `n` on, before the first one whose chunk is damaged. -/
def beforeDamage : ℕ → List Bytes → List Bytes
  | _, [] => []
  | n, d :: ds => if Damaged bot before after n then [] else d :: beforeDamage (n + 1) ds

/-- The first damaged one of the chunks below `k` is still there. -/
def FirstAltered (k : ℕ) : Prop :=
  ∀ n < k, (∀ m < n, ¬Damaged bot before after m) → Damaged bot before after n →
    after (.chunk bot n) ≠ none

/-- The manifest of the first `k` blocks restores to those before the first damaged chunk. -/
def LongestPrefix (bucket : String) (sha256 : Bytes → String) (blocks : List Bytes) (k : ℕ) :
    Prop :=
  0 < k → ∃ damaged, (damaged = true ↔ ∃ n < k, Damaged bot before after n) ∧
    restored sha256 after ⟨bucket, .manifest bot⟩ =
      .ok ((beforeDamage bot before after 0 (blocks.take k)).flatten, damaged,
        sha256 (beforeDamage bot before after 0 (blocks.take k)).flatten)

/-- The byte strings that are hashed. -/
def hashed (blocks : List Bytes) : Set Bytes :=
  {data | data ∈ blocks ∨ ∃ n, after (.chunk bot n) = some (.bytes data)}

end damage

variable {bucket : String} {sha256 : Bytes → String} {bot n k : ℕ} {before after : Objects}
  {ds blocks : List Bytes}

variable (bucket) in
/-- One after the other, the chunks are read up to the first damaged one. -/
theorem restoreChunks_damaged (hs : Stored bot before n ds) (hd : Damages before after)
    (hi : Set.InjOn sha256 (hashed bot after ds)) (restored : Bytes) :
    (∀ i < ds.length, ¬Damaged bot before after (n + i)) ∧ beforeDamage bot before after n ds = ds ∧
      (restoreChunks (intact after) sha256 (describe sha256 bucket bot n ds) restored).run =
        .ok (restored ++ ds.flatten, true) ∨
    ∃ i < ds.length, (∀ j < i, ¬Damaged bot before after (n + j)) ∧
      Damaged bot before after (n + i) ∧
      (restoreChunks (intact after) sha256 (describe sha256 bucket bot n ds) restored).run =
        if after (.chunk bot (n + i)) = none then .error ()
        else .ok (restored ++ (beforeDamage bot before after n ds).flatten, false) := by
  induction ds generalizing n restored with
  | nil =>
    left
    refine ⟨fun i hi => absurd hi (Nat.not_lt_zero i), rfl, ?_⟩
    simp [describe, restoreChunks, ExceptT.run, pure, ExceptT.pure, ExceptT.mk]
  | cons d ds ih =>
    by_cases hn : Damaged bot before after n
    · right
      refine ⟨0, by simp, fun j hj => absurd hj (Nat.not_lt_zero j), hn, ?_⟩
      have hne : after (.chunk bot n) ≠ before (.chunk bot n) := hn
      rcases hd.chunk bot n with h | h | ⟨data, h⟩
      · exact absurd h hne
      · have hget : (intact after).get (.chunk bot n) = throw () := by simp only [intact, h]
        simp only [describe, restoreChunks, entry, hget, Nat.add_zero, h, if_true]
        rfl
      · have hget : (intact after).get (.chunk bot n) = pure (.bytes data) := by
          simp only [intact, h]
        have hdata : data ≠ d := by
          intro he
          rw [h, hs.1, he] at hne
          exact hne rfl
        have hsha : sha256 data ≠ sha256 d := by
          intro he
          exact hdata (hi (Or.inr ⟨n, h⟩) (Or.inl List.mem_cons_self) he)
        simp only [describe, restoreChunks, entry, hget, pure_bind, Nat.add_zero, h]
        simp [hsha, beforeDamage, hn, ExceptT.run, pure, ExceptT.pure, ExceptT.mk]
    · have hstays : after (.chunk bot n) = some (.bytes d) := by
        rw [← hs.1]
        exact not_not.mp hn
      have hget : (intact after).get (.chunk bot n) = pure (.bytes d) := by
        simp only [intact, hstays]
      have hrun : (restoreChunks (intact after) sha256 (describe sha256 bucket bot n (d :: ds))
          restored).run = (restoreChunks (intact after) sha256
            (describe sha256 bucket bot (n + 1) ds) (restored ++ d)).run := by
        simp only [describe, restoreChunks, entry, hget, pure_bind, ne_eq, not_true_eq_false,
          if_false]
      have hinj : Set.InjOn sha256 (hashed bot after ds) :=
        hi.mono fun data h => h.imp (List.mem_cons_of_mem d) id
      have hnext : ∀ i, n + 1 + i = n + (i + 1) := fun i => by omega
      have hbefore : beforeDamage bot before after n (d :: ds) =
          d :: beforeDamage bot before after (n + 1) ds := by simp [beforeDamage, hn]
      rw [hrun, hbefore]
      rcases ih hs.2 hinj (restored ++ d) with ⟨hall, hb, he⟩ | ⟨i, hlt, hall, hx, he⟩
      · left
        refine ⟨fun i hi => ?_, by rw [hb], ?_⟩
        · cases i with
          | zero => exact hn
          | succ i => exact hnext i ▸ hall i (Nat.lt_of_succ_lt_succ hi)
        · rw [he, List.flatten_cons, List.append_assoc]
      · right
        refine ⟨i + 1, Nat.succ_lt_succ hlt, fun j hj => ?_, hnext i ▸ hx, ?_⟩
        · cases j with
          | zero => exact hn
          | succ j => exact hnext j ▸ hall j (Nat.lt_of_succ_lt_succ hj)
        · rw [he, hnext, List.flatten_cons, List.append_assoc]

variable (bucket) in
/-- A manifest that lists the blocks gives them back up to the first damaged chunk, unless that
chunk is missing. -/
theorem restored_damaged {manifest : Manifest}
    (hm : before (.manifest bot) = some (.json manifest))
    (hc : manifest.chunks = describe sha256 bucket bot 0 ds) (hs : Stored bot before 0 ds)
    (hd : Damages before after) (hi : Set.InjOn sha256 (hashed bot after ds)) :
    (∃ damaged, (damaged = true ↔ ∃ n < ds.length, Damaged bot before after n) ∧
      restored sha256 after ⟨bucket, .manifest bot⟩ =
        .ok ((beforeDamage bot before after 0 ds).flatten, damaged,
          sha256 (beforeDamage bot before after 0 ds).flatten)) ↔
      FirstAltered bot before after ds.length := by
  have hget : (intact after).get (.manifest bot) = pure (.json manifest) := by
    simp only [intact, hd.other (.manifest bot) (by simp), hm]
  rcases restoreChunks_damaged bucket hs hd hi [] with
    ⟨hall, hb, hrun⟩ | ⟨i, hlt, hall, hx, hrun⟩
  · simp only [Nat.zero_add] at hall
    refine ⟨fun _ n hn _ h => absurd h (hall n hn), fun _ => ⟨false, ?_, ?_⟩⟩
    · constructor
      · intro h
        cases h
      · rintro ⟨n, hn, h⟩
        exact absurd h (hall n hn)
    · simp only [restored, restorePrefix, hget, pure_bind, hc, ExceptT.run_bind, hrun, hb]
      rfl
  · simp only [Nat.zero_add] at hall hx hrun
    by_cases hnone : after (.chunk bot i) = none
    · rw [if_pos hnone] at hrun
      have herr : restored sha256 after ⟨bucket, .manifest bot⟩ = .error () := by
        simp only [restored, restorePrefix, hget, pure_bind, hc, ExceptT.run_bind, hrun]
        rfl
      constructor
      · rintro ⟨damaged, -, he⟩
        rw [herr] at he
        cases he
      · intro h
        exact absurd hnone (h i hlt hall hx)
    · rw [if_neg hnone] at hrun
      refine ⟨fun _ n hn hpre h => ?_, fun _ => ⟨true, ?_, ?_⟩⟩
      · have hni : n = i := by
          rcases Nat.lt_trichotomy n i with hlt' | he | hgt
          · exact absurd h (hall n hlt')
          · exact he
          · exact absurd hx (hpre i hgt)
        rw [hni]
        exact hnone
      · exact ⟨fun _ => ⟨i, hlt, hx⟩, fun _ => rfl⟩
      · simp only [restored, restorePrefix, hget, pure_bind, hc, ExceptT.run_bind, hrun]
        rfl

/-- What is stored once `k` manifests of the blocks have been put. -/
structure Moment (bucket : String) (sha256 : Bytes → String) (bot : ℕ) (blocks : List Bytes)
    (moment : ℕ × Objects) : Prop where
  le : moment.1 ≤ blocks.length
  stored : Stored bot moment.2 0 (blocks.take moment.1)
  manifest : 0 < moment.1 → ∃ manifest, moment.2 (.manifest bot) = some (.json manifest) ∧
    manifest.chunks = describe sha256 bucket bot 0 (blocks.take moment.1)

/-- A writer has appended `ds`, and the rest of the blocks is to come. -/
structure Appended (bucket : String) (sha256 : Bytes → String) (bot : ℕ) (blocks ds : List Bytes)
    (w : CheckpointWriter) (s : Written) : Prop where
  done : ds <+: blocks
  botId : w.botId = bot
  chunks : w.chunks = describe sha256 bucket bot 0 ds
  stored : Stored bot s.objects 0 ds
  manifests : s.manifests = ds.length
  manifest : 0 < ds.length → ∃ manifest, s.objects (.manifest bot) = some (.json manifest) ∧
    manifest.chunks = describe sha256 bucket bot 0 ds
  moments : ∀ moment ∈ s.moments, Moment bucket sha256 bot blocks moment

variable {w : CheckpointWriter} {s : Written} {d : Bytes}

variable (bucket sha256 w s) in
theorem append_eq (hd : d ≠ []) : ∃ answer, w.append (storing bucket) sha256 d s =
    ((answer, { w.add sha256 ⟨bucket, .chunk w.botId w.chunks.length⟩
        (.chunk w.botId w.chunks.length) d with
        manifestUri := some ⟨bucket, .manifest w.botId⟩ }),
      (s.put (.chunk w.botId w.chunks.length) (.bytes d)).put (.manifest w.botId)
        (.json (w.add sha256 ⟨bucket, .chunk w.botId w.chunks.length⟩
          (.chunk w.botId w.chunks.length) d).manifest)) := by
  refine ⟨.ok (some ⟨bucket, .manifest w.botId⟩), ?_⟩
  simp only [CheckpointWriter.append, if_neg hd]
  rfl

theorem Appended.append (h : Appended bucket sha256 bot blocks ds w s)
    (hnext : ds ++ [d] <+: blocks) (hd : d ≠ []) :
    ∃ answer w' s', w.append (storing bucket) sha256 d s = ((answer, w'), s') ∧
      Appended bucket sha256 bot blocks (ds ++ [d]) w' s' := by
  have hbot := h.botId
  subst hbot
  obtain ⟨answer, he⟩ := append_eq bucket sha256 w s hd
  refine ⟨answer, _, _, he, ?_⟩
  have hlen : w.chunks.length = ds.length := by rw [h.chunks, length_describe]
  have hchunk : Stored w.botId (s.put (.chunk w.botId w.chunks.length) (.bytes d)).objects 0
      (ds ++ [d]) := by
    rw [hlen]
    refine Stored.append.mpr ⟨h.stored.update_of_le (by omega), ?_, trivial⟩
    simp [Written.put]
  have hlist : (w.add sha256 ⟨bucket, .chunk w.botId w.chunks.length⟩
      (.chunk w.botId w.chunks.length) d).chunks =
        describe sha256 bucket w.botId 0 (ds ++ [d]) := by
    rw [describe_concat, ← h.chunks]
    simp [CheckpointWriter.add, entry, hlen]
  have hmanifest : ∃ manifest, (Function.update
      (s.put (.chunk w.botId w.chunks.length) (.bytes d)).objects (.manifest w.botId)
      (some (.json (w.add sha256 ⟨bucket, .chunk w.botId w.chunks.length⟩
        (.chunk w.botId w.chunks.length) d).manifest))) (.manifest w.botId) =
          some (.json manifest) ∧
      manifest.chunks = describe sha256 bucket w.botId 0 (ds ++ [d]) :=
    ⟨_, Function.update_self .., hlist⟩
  have hstored : Stored w.botId (Function.update
      (s.put (.chunk w.botId w.chunks.length) (.bytes d)).objects (.manifest w.botId)
      (some (.json (w.add sha256 ⟨bucket, .chunk w.botId w.chunks.length⟩
        (.chunk w.botId w.chunks.length) d).manifest))) 0 (ds ++ [d]) :=
    hchunk.update_of_ne (by simp)
  have htake : blocks.take ds.length = ds := (List.prefix_iff_eq_take.mp h.done).symm
  have htake' : blocks.take (ds.length + 1) = ds ++ [d] := by
    have := (List.prefix_iff_eq_take.mp hnext).symm
    rwa [List.length_append, List.length_singleton] at this
  refine ⟨hnext, rfl, hlist, hstored, ?_, fun _ => hmanifest, ?_⟩
  · simp [Written.put, Written.counted, h.manifests]
  · intro moment hmem
    simp only [Written.put, Written.counted, List.append_assoc, List.mem_append,
      List.mem_singleton] at hmem
    rcases hmem with hmem | rfl | rfl
    · exact h.moments moment hmem
    · simp only [h.manifests]
      refine ⟨h.done.length_le, ?_, fun hpos => ?_⟩
      · simp only [htake, hlen]
        exact h.stored.update_of_le (by omega)
      · simp only [htake, ne_eq, reduceCtorEq, not_false_eq_true, Function.update_of_ne]
        exact h.manifest hpos
    · simp only [h.manifests]
      refine ⟨by simpa using hnext.length_le, ?_, fun _ => ?_⟩
      · simp only [htake']
        exact hstored
      · simp only [htake']
        exact hmanifest

theorem Appended.appendAll {rest : List Bytes} (h : Appended bucket sha256 bot blocks ds w s)
    (hrest : ds ++ rest <+: blocks) (hne : ∀ d ∈ rest, d ≠ []) :
    ∃ w', Appended bucket sha256 bot blocks (ds ++ rest) w' (appendAll bucket sha256 w rest s).2 := by
  induction rest generalizing ds w s with
  | nil =>
    rw [List.append_nil]
    exact ⟨w, h⟩
  | cons d rest ih =>
    have hsplit : ds ++ d :: rest = ds ++ [d] ++ rest := by simp
    rw [hsplit] at hrest ⊢
    have hnext : ds ++ [d] <+: blocks := (List.prefix_append _ _).trans hrest
    obtain ⟨answer, w', s', he, h'⟩ := h.append hnext (hne d List.mem_cons_self)
    obtain ⟨w'', h''⟩ := ih h' hrest fun x hx => hne x (List.mem_cons_of_mem d hx)
    refine ⟨w'', ?_⟩
    have hrun : Fakery.Storage.appendAll bucket sha256 w (d :: rest) s =
        Fakery.Storage.appendAll bucket sha256 w' rest s' := by
      simp only [Fakery.Storage.appendAll, bind, StateT.bind, he]
    rw [hrun]
    exact h''

variable (bucket sha256 bot) in
theorem moment_written (objects : Objects) (hne : ∀ d ∈ blocks, d ≠ []) :
    ∀ moment ∈ (written bucket sha256 objects bot blocks).moments,
      Moment bucket sha256 bot blocks moment := by
  have hstart : Appended bucket sha256 bot blocks [] { botId := bot }
      { objects, moments := [(0, objects)] } := by
    refine ⟨List.nil_prefix, rfl, rfl, trivial, rfl, fun h => absurd h (Nat.lt_irrefl 0),
      fun moment hmem => ?_⟩
    obtain rfl := List.mem_singleton.mp hmem
    exact ⟨Nat.zero_le _, trivial, fun h => absurd h (Nat.lt_irrefl 0)⟩
  obtain ⟨w, h⟩ := hstart.appendAll List.prefix_rfl hne
  exact h.moments

/-- At every moment, and whatever is done to the chunks afterwards, the manifest restores to the
blocks before the first damaged chunk, unless that chunk is missing. -/
theorem longestPrefix_iff (objects : Objects) {blocks : List Bytes} (hne : ∀ d ∈ blocks, d ≠ [])
    {moment : ℕ × Objects} (hm : moment ∈ (written bucket sha256 objects bot blocks).moments)
    {after : Objects} (hd : Damages moment.2 after)
    (hi : Set.InjOn sha256 (hashed bot after blocks)) :
    LongestPrefix bot moment.2 after bucket sha256 blocks moment.1 ↔
      FirstAltered bot moment.2 after moment.1 := by
  have h := moment_written bucket sha256 bot objects hne moment hm
  have hlen : (blocks.take moment.1).length = moment.1 := by
    rw [List.length_take, Nat.min_eq_left h.le]
  have hinj : Set.InjOn sha256 (hashed bot after (blocks.take moment.1)) :=
    hi.mono fun data hdata => hdata.imp List.mem_of_mem_take id
  rcases Nat.eq_zero_or_pos moment.1 with hk | hk
  · rw [LongestPrefix, FirstAltered, hk]
    exact ⟨fun _ n hn => absurd hn (Nat.not_lt_zero n), fun _ h => absurd h (Nat.lt_irrefl 0)⟩
  · obtain ⟨manifest, hobj, hchunks⟩ := h.manifest hk
    have hrestored := restored_damaged bucket hobj hchunks h.stored hd hinj
    rw [hlen] at hrestored
    rw [LongestPrefix, ← hrestored]
    exact ⟨fun h => h hk, fun h _ => h⟩

/-- A stand-in for the digest: the bytes themselves, as characters. -/
def spelled (data : Bytes) : String := String.ofList (data.map fun b => Char.ofNat b.toNat)

theorem spelled_injective : Function.Injective spelled := by
  intro x y he
  have hchar : ∀ b : UInt8, (Char.ofNat b.toNat).toNat = b.toNat := by
    intro b
    have hvalid : b.toNat.isValidChar := Or.inl (by have := b.toNat_lt; omega)
    rw [Char.ofNat, dif_pos hvalid]
    rfl
  have hmap := String.ofList_injective he
  refine List.map_injective_iff.mpr (fun a b hab => ?_) hmap
  have hnat := congrArg Char.toNat hab
  rw [hchar, hchar] at hnat
  exact UInt8.toNat_inj.mp hnat

/-- Two blocks, after both of which the second chunk is gone. -/
def twoBlocks : Written := written "twin" spelled (fun _ => none) 7 [[1], [2]]

def withoutSecond : Objects := Function.update twoBlocks.objects (.chunk 7 1) none

theorem damages_withoutSecond : Damages twoBlocks.objects withoutSecond := by
  constructor
  · intro bot n
    by_cases he : Key.chunk bot n = .chunk 7 1
    · rw [withoutSecond, he, Function.update_self]
      exact Or.inr (Or.inl rfl)
    · exact Or.inl (Function.update_of_ne he _ _)
  · intro key hk
    exact Function.update_of_ne (hk 7 1) _ _

theorem twoBlocks_last : (2, twoBlocks.objects) ∈ twoBlocks.moments :=
  List.mem_of_getLast? rfl

theorem longestPrefix_iff_twoBlocks :
    LongestPrefix 7 twoBlocks.objects withoutSecond "twin" spelled [[1], [2]] 2 ↔
      FirstAltered 7 twoBlocks.objects withoutSecond 2 :=
  longestPrefix_iff (fun _ => none) (by decide) twoBlocks_last damages_withoutSecond
    (spelled_injective.injOn)

/-- The first block is not given back: the manifest cannot be restored at all. -/
theorem not_longestPrefix : (∀ d ∈ [[1], [2]], d ≠ ([] : Bytes)) ∧
    (2, twoBlocks.objects) ∈ twoBlocks.moments ∧ Damages twoBlocks.objects withoutSecond ∧
    Set.InjOn spelled (hashed 7 withoutSecond [[1], [2]]) ∧
    ¬LongestPrefix 7 twoBlocks.objects withoutSecond "twin" spelled [[1], [2]] 2 := by
  refine ⟨by decide, twoBlocks_last, damages_withoutSecond, spelled_injective.injOn, fun h => ?_⟩
  obtain ⟨damaged, -, he⟩ := h (by decide)
  have herr : restored spelled withoutSecond ⟨"twin", .manifest 7⟩ = .error () := by
    decide +kernel
  rw [herr] at he
  cases he

end Fakery.Storage

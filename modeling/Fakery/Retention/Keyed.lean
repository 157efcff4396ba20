import Fakery.Retention.Tolerance
import Fakery.Sequential.Simulation
import Fakery.Storage.Texts

/-! The sweep as it is, with texts for the keys of objects and the identifiers of bots. -/
namespace Fakery.Retention.Keyed
open Fakery.Bots Fakery.Sequential Fakery.Storage Fakery.Texts

structure Entry where
  key : Text
  size : ℕ
  modified : ℕ
deriving DecidableEq

/-- `tried` and `removed` are as in `Retention.Holdings`. -/
structure Holdings where
  entries : List Entry
  row : Text → Option BotRun
  tried : List Text := []
  removed : List Text := []

structure Outcomes where
  removeRaises : Text → Bool := fun _ => false
  updateRaises : Text → Bool := fun _ => false
  now : ℕ
  moment : Text → ℕ

def isExpired (settings : Settings) (now : ℕ) (expiry : Option ℕ) (entry : Entry) : Bool :=
  match expiry with
  | some expiry => expiry ≤ now
  | none => expired entry.modified now settings.retentionDays

/-- What `mark_expired` does to the run of a key. -/
def expire (key : Text) (run : BotRun) : BotRun :=
  let run := if inCheckpoints key then run else { run with
    recordingStatus := "expired", finalizationStatus := "expired", recordingUri := none }
  if isManifest key then { run with checkpointManifestUri := none } else run

section code

abbrev Act := Fallible Holdings Unit

variable (settings : Settings) (o : Outcomes)

def remove (key : Text) : Act Unit := do
  Fallible.update fun s => { s with tried := s.tried ++ [key] }
  if o.removeRaises key then Fallible.raise ()
  else Fallible.update fun s =>
    { s with entries := s.entries.filter (·.key ≠ key), removed := s.removed ++ [key] }

def Holdings.mark (key botId : Text) (moment : ℕ) (s : Holdings) : Holdings :=
  { s with
    row := Function.update s.row botId
      ((s.row botId).map fun run => BotRun.flushed run moment (expire key run)) }

def markExpired (key : Text) : Act Unit :=
  match Storage.botIdFromKey key with
  | none => pure ()
  | some botId =>
    if o.updateRaises key then Fallible.raise ()
    else Fallible.update (Holdings.mark key botId (o.moment key))

def expiryForKey (row : Text → Option BotRun) (key : Text) : Option ℕ :=
  (Storage.botIdFromKey key).bind fun botId => (row botId).bind BotRun.recordingExpiresAt

def sweepEach (expiry : Text → Option ℕ) : List Entry → Summary → Act Summary
  | [], n => pure n
  | entry :: entries, n => do
    let n := { n with scanned := n.scanned + 1 }
    if isExpired settings o.now (expiry entry.key) entry then
      if settings.dryRun then
        sweepEach expiry entries
          { n with wouldDelete := n.wouldDelete + 1, freedBytes := n.freedBytes + entry.size }
      else do
        let removed ← (do remove o entry.key; pure true : Act Bool).except fun _ => pure false
        if removed then do
          markExpired o entry.key
          sweepEach expiry entries
            { n with deleted := n.deleted + 1, freedBytes := n.freedBytes + entry.size }
        else sweepEach expiry entries { n with failed := n.failed + 1 }
    else sweepEach expiry entries { n with kept := n.kept + 1 }

def sweep : Act Summary := do
  let row ← Fallible.read Holdings.row
  let entries ← Fallible.read Holdings.entries
  sweepEach settings o (expiryForKey row) entries {}

end code

section keys

variable (names : BotNames)

def entryOf (entry : Retention.Entry) : Entry :=
  ⟨keyText names entry.key, entry.size, entry.modified⟩

/-- The outcomes of the calls for the keys that the program writes. -/
def Outcomes.ofKeys (o : Outcomes) : Retention.Outcomes where
  removeRaises key := o.removeRaises (keyText names key)
  updateRaises key := o.updateRaises (keyText names key)
  now := o.now
  moment key := o.moment (keyText names key)

/-- The texts of the objects and rows of the bots, and the rows in `row` that are none of theirs. -/
structure Represents (row : Text → Option BotRun) (s : Retention.Holdings) (t : Holdings) :
    Prop where
  entries : t.entries = s.entries.map (entryOf names)
  rows : ∀ bot, t.row (names.text bot) = s.rows.row bot
  others : ∀ botId, (∀ bot, botId ≠ names.text bot) → t.row botId = row botId
  tried : t.tried = s.tried.map (keyText names)
  removed : t.removed = s.removed.map (keyText names)

variable {names} {settings : Settings} {o : Outcomes} {row : Text → Option BotRun}
  {s : Retention.Holdings} {t : Holdings}

/-- The texts of a key say which kind it is of. -/
theorem expire_keyText (key : Key) (run : BotRun) :
    expire (keyText names key) run = run.markExpired key := by
  have hdir := inCheckpoints_keyText names key
  have hmanifest := isManifest_keyText names key
  cases key with
  | recording bot =>
    have hno : inCheckpoints (keyText names (.recording bot)) = false :=
      (Bool.not_eq_true _).mp fun h => hdir.mp h bot rfl
    have hnone : isManifest (keyText names (.recording bot)) = false :=
      (Bool.not_eq_true _).mp fun h => by
        obtain ⟨_, hkey⟩ := hmanifest.mp h
        cases hkey
    simp [expire, hno, hnone, BotRun.markExpired]
  | chunk bot sequence =>
    have hyes : inCheckpoints (keyText names (.chunk bot sequence)) = true :=
      hdir.mpr fun _ hkey => by cases hkey
    have hnone : isManifest (keyText names (.chunk bot sequence)) = false :=
      (Bool.not_eq_true _).mp fun h => by
        obtain ⟨_, hkey⟩ := hmanifest.mp h
        cases hkey
    simp [expire, hyes, hnone, BotRun.markExpired]
  | manifest bot =>
    have hyes : inCheckpoints (keyText names (.manifest bot)) = true :=
      hdir.mpr fun _ hkey => by cases hkey
    have hmine : isManifest (keyText names (.manifest bot)) = true := hmanifest.mpr ⟨bot, rfl⟩
    simp [expire, hyes, hmine, BotRun.markExpired]

theorem bot_eq (key : Key) : key.bot = Retention.botIdFromKey key := by cases key <;> rfl

theorem Represents.mark (h : Represents names row s t) (key : Key) (moment : ℕ) :
    Represents names row { s with rows := s.rows.mark key moment }
      (t.mark (keyText names key) (names.text key.bot) moment) where
  entries := h.entries
  rows bot := by
    simp only [Holdings.mark, Rows.mark, ← bot_eq, expire_keyText]
    by_cases hb : bot = key.bot
    · subst hb
      rw [Function.update_self, Function.update_self, h.rows]
      rfl
    · rw [Function.update_of_ne (names.injective.ne hb), Function.update_of_ne hb, h.rows]
  others botId hne := by
    simp only [Holdings.mark]
    rw [Function.update_of_ne (hne key.bot), h.others botId hne]
  tried := h.tried
  removed := h.removed

variable (o) in
theorem remove_matches (key : Key) : Fallible.Matches (Represents names row)
    (Retention.Holdings.remove (o.ofKeys names) key) (remove o (keyText names key)) := by
  refine Fallible.Matches.bind (.update fun s t h => ?_) fun _ => ?_
  · exact ⟨h.entries, h.rows, h.others, by simp [h.tried], h.removed⟩
  · refine .ite Iff.rfl (.raise ()) (.update fun s t h => ?_)
    refine ⟨?_, h.rows, h.others, h.tried, by simp [h.removed]⟩
    have hkey : ∀ entry : Retention.Entry, decide ((entryOf names entry).key ≠ keyText names key) =
        decide (entry.key ≠ key) := fun entry =>
      decide_eq_decide.mpr (not_congr (keyText_injective names).eq_iff)
    simp only [h.entries, List.filter_map, Function.comp_def, hkey]

variable (o) in
theorem markExpired_matches (key : Key) : Fallible.Matches (Represents names row)
    (Retention.Holdings.markExpired (o.ofKeys names) key) (markExpired o (keyText names key)) := by
  rw [markExpired, botIdFromKey_keyText, Retention.Holdings.markExpired]
  exact .ite Iff.rfl (.raise ()) (.update fun s t h => h.mark key _)

theorem expiryForKey_keyText (h : Represents names row s t) (key : Key) :
    expiryForKey t.row (keyText names key) = Retention.Holdings.expiryForKey s.rows key := by
  rw [expiryForKey, botIdFromKey_keyText, Option.bind_some, h.rows,
    Retention.Holdings.expiryForKey, bot_eq]

variable (settings o) in
theorem sweepEach_matches {expiry : Text → Option ℕ} {expiry' : Key → Option ℕ}
    (he : ∀ key, expiry (keyText names key) = expiry' key) (entries : List Retention.Entry)
    (n : Summary) : Fallible.Matches (Represents names row)
      (Retention.Holdings.sweepEach settings (o.ofKeys names) expiry' entries n)
      (sweepEach settings o expiry (entries.map (entryOf names)) n) := by
  induction entries generalizing n with
  | nil => exact .pure n
  | cons entry entries ih =>
    have hexpired : isExpired settings o.now (expiry (entryOf names entry).key)
        (entryOf names entry) = Retention.isExpired settings (o.ofKeys names).now
          (expiry' entry.key) entry := by
      simp only [entryOf, he]
      rfl
    simp only [List.map_cons, sweepEach, Retention.Holdings.sweepEach, hexpired]
    split_ifs
    · exact ih _
    · refine .bind (.except ((remove_matches o entry.key).bind fun _ => .pure true)
        fun _ => .pure false) fun removed => ?_
      cases removed with
      | true => exact (markExpired_matches o entry.key).bind fun _ => ih _
      | false => exact ih _
    · exact ih _

variable (settings o) in
theorem sweep_matches : Fallible.Matches (Represents names row)
    (Retention.Holdings.sweep settings (o.ofKeys names)) (sweep settings o) := by
  refine .read fun s t h => .read fun s' t' h' => ?_
  rw [h'.entries]
  exact sweepEach_matches settings o (fun key => expiryForKey_keyText h key) _ _

/-- The sweep, on the objects that the program writes and the rows of their bots: on texts it gives
the same summary, or raises in the same place, and removes the same objects and changes the same
rows as on structured keys, and no row of another identifier. What the URI of a row leads to has
been removed on the one level exactly if it has on the other. -/
theorem sweep_represents (names : BotNames) (bucket : Bucket) (admits : Text → Bool)
    (settings : Settings) (o : Outcomes) (s : Retention.Holdings) (t : Holdings)
    (h : Represents names t.row s t) :
    let r := Retention.Holdings.sweep settings (o.ofKeys names) s
    let q := sweep settings o t
    q.1 = r.1 ∧ Represents names t.row r.2 q.2 ∧
      ∀ key, ∃ text, keyFromUri admits (uriText bucket.name (keyText names key)) = some text ∧
        recordingUriKey (uriText bucket.name (keyText names key)) = text ∧
        (text ∈ q.2.removed ↔ key ∈ r.2.removed) := by
  intro r q
  obtain ⟨hanswer, hstate⟩ := sweep_matches settings o s t h
  refine ⟨hanswer, hstate, fun key => ⟨_, keyFromUri_uriText names admits bucket key,
    recordingUriKey_uriText names bucket key, ?_⟩⟩
  rw [hstate.removed, List.mem_map_of_injective (keyText_injective names)]

/-- The two recordings and their rows, in texts, beside the row of another bot. -/
def storedTexts : Holdings where
  entries := Retention.Holdings.stored.entries.map (entryOf .decimal)
  row botId :=
    if botId = BotNames.decimal.text 7 then some (Retention.Holdings.storedRun 7)
    else if botId = BotNames.decimal.text 8 then some (Retention.Holdings.storedRun 8)
    else if botId = "other".toList then some (Retention.Holdings.storedRun 9)
    else none

/-- The second one cannot be removed. -/
def stuck : Outcomes where
  removeRaises key := key = "recordings/b8.webm".toList
  now := 20
  moment _ := 20

theorem represents_stored : Represents .decimal storedTexts.row Retention.Holdings.stored
    storedTexts where
  entries := rfl
  rows bot := by
    have hother : BotNames.decimal.text bot ≠ "other".toList := by
      intro heq
      have hhead := congrArg List.head? heq
      cases hhead
    simp only [storedTexts, BotNames.decimal.injective.eq_iff, if_neg hother]
    by_cases h₇ : bot = 7
    · subst h₇
      rfl
    · by_cases h₈ : bot = 8
      · subst h₈
        rfl
      · rw [if_neg h₇, if_neg h₈]
        exact (if_neg (not_or.mpr ⟨h₇, h₈⟩)).symm
  others _ _ := rfl
  tried := rfl
  removed := rfl

/-- The first one is removed and its row changed, the second one is counted as failed. -/
theorem sweep_represents_stored :
    (sweep Retention.Holdings.live stuck storedTexts).1 = .ok ⟨2, 1, 0, 0, 1, 100⟩ ∧
      (sweep Retention.Holdings.live stuck storedTexts).2.removed = ["recordings/b7.webm".toList] ∧
      ((sweep Retention.Holdings.live stuck storedTexts).2.row (BotNames.decimal.text 7)).map
        BotRun.recordingStatus = some "expired" ∧
      (sweep Retention.Holdings.live stuck storedTexts).2.row "other".toList =
        some (Retention.Holdings.storedRun 9) := by
  obtain ⟨hanswer, hstate, -⟩ := sweep_represents .decimal
    ⟨"twin".toList, List.all_eq_true.mp (by decide)⟩ (fun _ => true) Retention.Holdings.live stuck
    Retention.Holdings.stored storedTexts represents_stored
  refine ⟨hanswer.trans (by decide +kernel), hstate.removed.trans (by decide +kernel), ?_, ?_⟩
  · rw [hstate.rows 7]
    decide +kernel
  · refine (hstate.others _ fun bot heq => ?_).trans rfl
    have hhead := congrArg List.head? heq
    cases hhead

end keys

end Fakery.Retention.Keyed

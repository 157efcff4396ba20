import Fakery.Recording.Served
import Fakery.Retention.Sweep

/-! An expired recording stays expired, as long as the finalizer cannot restore it any more. -/
namespace Fakery.Retention
open Fakery.Bots Fakery.Concurrent Fakery.Core Fakery.Recording Fakery.Storage

/-- The recording of a restore, where one that raises gives none. -/
def recording : Except Unit (Bytes × Bool × String) → Bytes
  | .ok x => x.1
  | .error _ => []

/-- What a restore from the manifest at `key` would give with the objects as they are. -/
def restorable (C : Context) (objects : Objects) (key : Key) : Bytes :=
  recording (restored C.sha256 objects ⟨C.bucket, key⟩)

def Call.reads : Call → Option Key
  | .finalizer (.get key) => some key
  | _ => none

/-- The transaction that commits `recording_status` as expired. -/
def Call.expires : Call → Bool
  | .markExpired (.recording _) => true
  | _ => false

/-- When the run is committed as expired no pass is in the middle of restoring it, and what a pass
finds of an expired run no longer gives a recording. -/
def notRestorable (C : Context) : (retention C).Condition where
  call _ _ i s := (i.expires = true → s.reading = []) ∧
    ∀ key ∈ i.reads, s.expired = true → restorable C s.base.objects key = []

instance (C : Context) (t : ℕ) (k : Op) (s : Store) : Decidable ((notRestorable C).start t k s) :=
  isTrue trivial

instance (C : Context) (t : ℕ) (k : Op) (i : Call) (s : Store) :
    Decidable ((notRestorable C).call t k i s) :=
  inferInstanceAs (Decidable ((i.expires = true → s.reading = []) ∧
    ∀ key ∈ i.reads, s.expired = true → restorable C s.base.objects key = []))

instance (C : Context) (t : ℕ) (s : Store) : Decidable ((notRestorable C).kill t s) :=
  isTrue trivial

instance (C : Context) (e : Recording.World) (s : Store) : Decidable ((notRestorable C).env e s) :=
  isTrue trivial

/-- Objects are only removed. -/
def Shrinks (objects objects' : Objects) : Prop :=
  ∀ key, objects' key = none ∨ objects' key = objects key

structure Inv (s : Store) : Prop where
  resurrected : s.resurrected = false
  expired : s.base.run.recordingStatus = "expired" → s.expired = true

structure Rely (t : ℕ) (s s' : Store) : Prop where
  reading : t ∈ s'.reading ↔ t ∈ s.reading
  expired : t ∈ s.reading → s'.expired = s.expired
  shrinks : s.expired = true → s'.expired = true ∧ Shrinks s.base.objects s'.base.objects

theorem Shrinks.refl (objects : Objects) : Shrinks objects objects := fun _ => Or.inr rfl

theorem Shrinks.trans {a b c : Objects} (h : Shrinks a b) (k : Shrinks b c) : Shrinks a c := by
  intro key
  rcases k key with hk | hk
  · exact Or.inl hk
  · exact (h key).imp hk.trans hk.trans

theorem Rely.refl (t : ℕ) (s : Store) : Rely t s s :=
  ⟨Iff.rfl, fun _ => rfl, fun h => ⟨h, .refl _⟩⟩

theorem Rely.trans {t : ℕ} {a b c : Store} (h : Rely t a b) (k : Rely t b c) : Rely t a c := by
  refine ⟨k.reading.trans h.reading, fun hr => ?_, fun he => ?_⟩
  · exact (k.expired (h.reading.mpr hr)).trans (h.expired hr)
  · obtain ⟨hb, hab⟩ := h.shrinks he
    obtain ⟨hc, hbc⟩ := k.shrinks hb
    exact ⟨hc, hab.trans hbc⟩

def expiring (C : Context) : Protocol (retention C) where
  cond := notRestorable C
  inv := Inv
  rely := Rely
  rely_refl := Rely.refl
  rely_trans _ _ _ _ := Rely.trans

variable {C : Context} {t u : ℕ} {k : Op} {i : Call} {c : Outcome} {s s' : Store} {α β : Type}
  {objects objects' : Objects} {chunks : List CheckpointChunk} {data : Bytes}

/-- The rest of a restore gives no recording. -/
def Doomed (C : Context) (objects : Objects) (chunks : List CheckpointChunk) (data : Bytes) :
    Prop :=
  ∀ r, (restoreChunks (intact objects) C.sha256 chunks data).run = .ok r → r.1 = []

theorem restoreChunks_bytes {chunk : CheckpointChunk} {found : Bytes}
    (h : objects chunk.key = some (.bytes found)) :
    (restoreChunks (intact objects) C.sha256 (chunk :: chunks) data).run =
      if C.sha256 found ≠ chunk.sha256 then .ok (data, false)
      else (restoreChunks (intact objects) C.sha256 chunks (data ++ found)).run := by
  rw [restoreChunks_cons, h]

theorem restoreChunks_gone {chunk : CheckpointChunk}
    (h : ∀ found, objects chunk.key ≠ some (.bytes found)) :
    (restoreChunks (intact objects) C.sha256 (chunk :: chunks) data).run = .error () := by
  rw [restoreChunks_cons]
  split
  next found hfound => exact absurd hfound (h found)
  next => rfl

theorem doomed_nil : Doomed C objects [] data ↔ data = [] := by
  constructor
  · intro h
    exact h (data, true) rfl
  · rintro rfl r hr
    cases Except.ok.inj hr
    rfl

theorem doomed_bytes {chunk : CheckpointChunk} {found : Bytes}
    (h : objects chunk.key = some (.bytes found)) : Doomed C objects (chunk :: chunks) data ↔
      if C.sha256 found ≠ chunk.sha256 then data = [] else
        Doomed C objects chunks (data ++ found) := by
  unfold Doomed
  rw [restoreChunks_bytes h]
  split
  · constructor
    · intro hd
      exact hd (data, false) rfl
    · intro hd r hr
      cases Except.ok.inj hr
      exact hd
  · rfl

/-- What is doomed stays doomed when more is removed. -/
theorem Doomed.shrinks (h : Doomed C objects chunks data) (hs : Shrinks objects objects') :
    Doomed C objects' chunks data := by
  induction chunks generalizing data with
  | nil => exact doomed_nil.mpr (doomed_nil.mp h)
  | cons chunk chunks ih =>
    by_cases hfound : ∃ found, objects' chunk.key = some (.bytes found)
    · obtain ⟨found, hf⟩ := hfound
      have he : objects chunk.key = some (.bytes found) := by
        rcases hs chunk.key with hn | he
        · cases hn.symm.trans hf
        · exact he.symm.trans hf
      rw [doomed_bytes hf]
      rw [doomed_bytes he] at h
      split_ifs at h ⊢
      · exact h
      · exact ih h
    · intro r hr
      rw [restoreChunks_gone fun found hf => hfound ⟨found, hf⟩] at hr
      cases hr

theorem doomed_of_restorable {key : Key} {manifest : Manifest}
    (hobj : objects key = some (.json manifest)) (h : restorable C objects key = []) :
    Doomed C objects manifest.chunks [] := by
  intro r hr
  have hget : (intact objects).get key = pure (.json manifest) := by
    simp only [intact, hobj]
  have hrun : restored C.sha256 objects ⟨C.bucket, key⟩ = .ok (r.1, !r.2, C.sha256 r.1) := by
    simp only [restored, restorePrefix, hget, pure_bind, ExceptT.run_bind, hr]
    rfl
  rw [restorable, hrun] at h
  exact h

/-- A pass has read the manifest and is to read `chunks` yet, having put together `data`. Once the
run is expired that comes to nothing. -/
structure InFlight (C : Context) (t : ℕ) (chunks : List CheckpointChunk) (data : Bytes)
    (s : Store) : Prop where
  reading : t ∈ s.reading
  doomed : s.expired = true → Doomed C s.base.objects chunks data

theorem InFlight.rely (h : InFlight C t chunks data s) (hr : Rely t s s') :
    InFlight C t chunks data s' := by
  refine ⟨hr.reading.mpr h.reading, fun he => ?_⟩
  have hexpired : s.expired = true := (hr.expired h.reading).symm.trans he
  exact (h.doomed hexpired).shrinks (hr.shrinks hexpired).2

/-- A pass that has restored a recording works on a run that is not expired. -/
structure Restoring (t : ℕ) (s : Store) : Prop where
  reading : t ∈ s.reading
  expired : s.expired = false

theorem Restoring.rely (h : Restoring t s) (hr : Rely t s s') : Restoring t s' :=
  ⟨hr.reading.mpr h.reading, (hr.expired h.reading).trans h.expired⟩

theorem InFlight.restoring (h : InFlight C t [] data s) (hd : data ≠ []) : Restoring t s := by
  refine ⟨h.reading, ?_⟩
  by_contra he
  exact hd (doomed_nil.mp (h.doomed (by simpa using he)))

theorem allowed_refl (hi : Inv s) : (expiring C).Allowed t s s :=
  ⟨hi, fun u _ => .refl u s, trivial⟩

theorem allowed_reading (hi : Inv s) :
    (expiring C).Allowed t s { s with reading := t :: s.reading } := by
  refine ⟨⟨hi.resurrected, hi.expired⟩, fun u hu => ⟨?_, fun _ => rfl, fun h => ⟨h, .refl _⟩⟩, trivial⟩
  simp [hu]

theorem allowed_quit (hi : Inv s) : (expiring C).Allowed t s (s.quit t) := by
  refine ⟨⟨hi.resurrected, hi.expired⟩, fun u hu => ⟨?_, fun _ => rfl, fun h => ⟨h, .refl _⟩⟩, trivial⟩
  simp [Store.quit, hu]

section finalizer

variable {j : Recording.Call}

theorem wp_call {Q : Recording.Answer j → Store → Prop} :
    (expiring C).wp t k (lift (Recording.ask j)) Q s ↔ ∀ s₁, Rely t s s₁ → Inv s₁ →
      (notRestorable C).call t k (.finalizer j) s₁ → ∀ c s₂ r,
        exec C t (.finalizer j) c s₁ = some (s₂, r) → (expiring C).Allowed t s₁ s₂ ∧ Q r s₂ := Iff.rfl

theorem wp_lift_bind {p : Recording.Prg α} {f : α → Recording.Prg β} {Q : β → Store → Prop} :
    (expiring C).wp t k (lift (p >>= f)) Q s ↔
      (expiring C).wp t k (lift p) (fun a s => (expiring C).wp t k (lift (f a)) Q s) s := by
  unfold lift
  rw [Prog.embed_bind]
  exact Protocol.wp_bind

theorem wp_lift_task_bind {x : ExceptT Unit Recording.Prg α} {f : α → ExceptT Unit Recording.Prg β}
    {Q : Except Unit β → Store → Prop}
    (h : (expiring C).wp t k (lift x.run) (fun r s =>
      (∀ a, r = .ok a → (expiring C).wp t k (lift (f a).run) Q s) ∧
        ∀ e, r = .error e → Q (.error e) s) s) :
    (expiring C).wp t k (lift (x >>= f).run) Q s := by
  rw [ExceptT.run_bind]
  refine wp_lift_bind.mpr (Protocol.wp_mono h fun r s hr => ?_)
  cases r with
  | ok a => exact hr.1 a rfl
  | error e => exact hr.2 e rfl

theorem exec_finalizer {r : Recording.Answer j}
    (he : exec C t (.finalizer j) c s = some (s', r)) : ∃ base,
      Recording.exec C t j c.toOutcome s.base = some (base, r) ∧ s' = s.observed C t base j r := by
  obtain ⟨⟨base, r'⟩, hx, he⟩ := Option.map_eq_some_iff.mp he
  obtain ⟨rfl, rfl⟩ := Prod.mk.inj he
  exact ⟨base, hx, rfl⟩

theorem get_cases {key : Key} {r : Except Unit Object}
    (he : exec C t (.finalizer (.get key)) c s = some (s', r)) :
    r = .error () ∧ s' = s ∨
      (∃ found, s.base.objects key = some (.bytes found) ∧ r = .ok (.bytes found) ∧ s' = s) ∨
      ∃ manifest, s.base.objects key = some (.json manifest) ∧ r = .ok (.json manifest) ∧
        s' = { s with reading := t :: s.reading } := by
  obtain ⟨base, hx, rfl⟩ := exec_finalizer he
  simp only [Recording.exec] at hx
  split at hx
  · rename_i object hobj
    obtain ⟨rfl, rfl⟩ := Prod.mk.inj (Option.some.inj hx)
    split_ifs
    · exact Or.inl ⟨rfl, rfl⟩
    · cases object with
      | bytes found => exact Or.inr (Or.inl ⟨found, hobj, rfl, rfl⟩)
      | json manifest => exact Or.inr (Or.inr ⟨manifest, hobj, rfl, rfl⟩)
  · obtain ⟨rfl, rfl⟩ := Prod.mk.inj (Option.some.inj hx)
    exact Or.inl ⟨rfl, rfl⟩

theorem wp_restoreChunks (h : InFlight C t chunks data s) :
    (expiring C).wp t k (lift (restoreChunks blob C.sha256 chunks data).run)
      (fun r s => ∀ x, r = .ok x → InFlight C t [] x.1 s) s := by
  induction chunks generalizing data s with
  | nil =>
    intro x hx
    cases Except.ok.inj hx
    exact h
  | cons chunk chunks ih =>
    refine wp_lift_task_bind (wp_call.mpr fun s₁ hr hi _ c s₂ r he => ?_)
    have h₁ := h.rely hr
    rcases get_cases he with ⟨rfl, rfl⟩ | ⟨found, hobj, rfl, rfl⟩ | ⟨manifest, hobj, rfl, rfl⟩
    · exact ⟨allowed_refl hi, nofun, fun _ _ => nofun⟩
    · refine ⟨allowed_refl hi, fun object ho => ?_, nofun⟩
      cases Except.ok.inj ho
      by_cases hsha : C.sha256 found ≠ chunk.sha256
      · simp only [if_pos hsha]
        intro x hx
        cases Except.ok.inj hx
        refine ⟨h₁.reading, fun hexpired => doomed_nil.mpr ?_⟩
        have hd := h₁.doomed hexpired
        rw [doomed_bytes hobj, if_pos hsha] at hd
        exact hd
      · simp only [if_neg hsha]
        refine ih ⟨h₁.reading, fun hexpired => ?_⟩
        have hd := h₁.doomed hexpired
        rw [doomed_bytes hobj, if_neg hsha] at hd
        exact hd
    · refine ⟨allowed_reading hi, fun object ho => ?_, nofun⟩
      cases Except.ok.inj ho
      exact fun _ hx => by cases hx

theorem wp_restorePrefix (uri : Uri) :
    (expiring C).wp t k (lift (restorePrefix blob C.sha256 uri).run)
      (fun r s => ∀ x, r = .ok x → InFlight C t [] x.1 s) s := by
  refine wp_lift_task_bind (wp_call.mpr fun s₁ _ hi hc c s₂ r he => ?_)
  rcases get_cases he with ⟨rfl, rfl⟩ | ⟨found, hobj, rfl, rfl⟩ | ⟨manifest, hobj, rfl, rfl⟩
  · exact ⟨allowed_refl hi, nofun, fun _ _ => nofun⟩
  · refine ⟨allowed_refl hi, fun object ho => ?_, nofun⟩
    cases Except.ok.inj ho
    exact fun _ hx => by cases hx
  · refine ⟨allowed_reading hi, fun object ho => ?_, nofun⟩
    cases Except.ok.inj ho
    have hflight : InFlight C t manifest.chunks [] { s₁ with reading := t :: s₁.reading } :=
      ⟨List.mem_cons_self, fun hexpired => doomed_of_restorable hobj (hc.2 uri.key rfl hexpired)⟩
    refine wp_lift_task_bind (Protocol.wp_mono (wp_restoreChunks hflight) fun r s h => ?_)
    refine ⟨fun x hx y hy => ?_, fun _ _ => nofun⟩
    cases Except.ok.inj hy
    exact h x hx

/-- The recording of a run that is not expired is stored. -/
theorem wp_put {key : Key} {object : Object} (h : Restoring t s) :
    (expiring C).wp t k (lift (Recording.ask (.put key object))) (fun _ => Restoring t) s := by
  refine wp_call.mpr fun s₁ hr hi _ c s₂ r he => ?_
  have h₁ := h.rely hr
  obtain ⟨base, hx, rfl⟩ := exec_finalizer he
  simp only [Recording.exec] at hx
  split_ifs at hx
  · obtain ⟨rfl, rfl⟩ := Prod.mk.inj (Option.some.inj hx)
    exact ⟨allowed_refl hi, h₁⟩
  · obtain ⟨rfl, rfl⟩ := Prod.mk.inj (Option.some.inj hx)
    have hstore : (s₁.base.store t key object).run = s₁.base.run := by
      unfold Recording.Store.store
      split <;> rfl
    refine ⟨⟨⟨?_, ?_⟩, fun u _ => ⟨Iff.rfl, fun _ => rfl, fun he => ?_⟩, trivial⟩, h₁.reading,
      h₁.expired⟩
    · simp [Store.observed, h₁.expired, hi.resurrected]
    · show (s₁.base.store t key object).run.recordingStatus = "expired" → s₁.expired = true
      rw [hstore]
      exact hi.expired
    · cases h₁.expired.symm.trans he

theorem flushed_recordingStatus (loaded : BotRun) (moment : ℕ) (run : BotRun) :
    (BotRun.flushed loaded moment run).recordingStatus = run.recordingStatus :=
  BotRun.flushed_column (fun _ _ => rfl) loaded moment run

theorem wp_finalize {uri : Uri} {sha256 : String} {size days : ℕ} (h : Restoring t s) :
    (expiring C).wp t k (lift (Recording.ask (.transaction (.finalize uri sha256 size days))))
      (fun _ _ => True) s := by
  refine wp_call.mpr fun s₁ hr hi _ c s₂ r he => ⟨?_, trivial⟩
  have h₁ := h.rely hr
  obtain ⟨base, hx, rfl⟩ := exec_finalizer he
  have hstatus : base.run.recordingStatus = "expired" →
      s₁.base.run.recordingStatus = "expired" := by
    simp only [Recording.exec] at hx
    split_ifs at hx
    · obtain ⟨rfl, -⟩ := Prod.mk.inj (Option.some.inj hx)
      exact id
    · obtain ⟨rfl, -⟩ := Prod.mk.inj (Option.some.inj hx)
      simp only [Recording.Store.setRun, Recording.Store.settle, flushed_recordingStatus]
      unfold BotRun.finalized
      split_ifs
      · exact id
      · intro hp
        have hpartial : "partial" = "expired" := hp
        exact absurd hpartial (by decide)
  refine ⟨⟨?_, fun hb => hi.expired (hstatus hb)⟩, fun u hu => ⟨?_, fun _ => rfl, fun he => ?_⟩,
    trivial⟩
  · simp [Store.observed, Store.quit, h₁.expired, hi.resurrected]
  · simp [Store.observed, Store.quit, hu]
  · cases h₁.expired.symm.trans he

theorem wp_recoverOnce :
    (expiring C).wp t k (lift (Recording.recoverOnce C)) (fun _ _ => True) s := by
  refine wp_lift_bind.mpr (wp_call.mpr fun s₁ _ hi _ c s₂ run he => ?_)
  obtain ⟨base, hx, rfl⟩ := exec_finalizer he
  obtain ⟨rfl, rfl⟩ := Prod.mk.inj (Option.some.inj hx)
  refine ⟨allowed_refl hi, ?_⟩
  cases s₁.base.run.checkpointManifestUri with
  | none => trivial
  | some manifestUri =>
    simp only
    split_ifs
    · trivial
    · refine wp_lift_bind.mpr (wp_lift_bind.mpr
        (Protocol.wp_mono (wp_restorePrefix manifestUri) fun r s h => ?_))
      cases r with
      | error e => trivial
      | ok x =>
        have hflight := h x rfl
        by_cases hempty : x.1 = []
        · simp only [if_pos hempty]
          trivial
        · simp only [if_neg hempty]
          refine wp_lift_bind.mpr (Protocol.wp_mono (wp_put (hflight.restoring hempty)) ?_)
          intro r s hs
          cases r with
          | error e => trivial
          | ok uri => exact wp_finalize hs

end finalizer

theorem wp_ask {Q : Answer i → Store → Prop} : (expiring C).wp t k (ask i) Q s ↔
    ∀ s₁, Rely t s s₁ → Inv s₁ → (notRestorable C).call t k i s₁ → ∀ c s₂ r,
      exec C t i c s₁ = some (s₂, r) → (expiring C).Allowed t s₁ s₂ ∧ Q r s₂ := Iff.rfl

theorem shrinks_remove (objects : Objects) (key : Key) :
    Shrinks objects (Function.update objects key none) := by
  intro key'
  by_cases h : key' = key
  · subst h
    exact Or.inl (Function.update_self _ _ _)
  · exact Or.inr (Function.update_of_ne h _ _)

theorem allowed_removed (hi : Inv s) (key : Key) : (expiring C).Allowed t s (s.removed key) :=
  ⟨⟨hi.resurrected, hi.expired⟩,
    fun _ _ => ⟨Iff.rfl, fun _ => rfl, fun h => ⟨h, shrinks_remove _ key⟩⟩, trivial⟩

/-- The run is committed as expired when no pass restores it. -/
theorem allowed_marked {key : Key} (hi : Inv s) (now : ℕ)
    (hc : Call.expires (.markExpired key) = true → s.reading = []) :
    (expiring C).Allowed t s (s.marked key now) := by
  have hstatus : (BotRun.flushed s.base.run now (s.base.run.markExpired key)).recordingStatus =
      (s.base.run.markExpired key).recordingStatus := flushed_recordingStatus _ _ _
  have hkept : Call.expires (.markExpired key) = false → (s.marked key now).expired = s.expired := by
    intro hkey
    have hsame : (s.base.run.markExpired key).recordingStatus = s.base.run.recordingStatus := by
      cases key with
      | recording bot => cases hkey
      | manifest bot => rfl
      | chunk bot n => rfl
    simp only [Store.marked, hstatus, hsame]
    by_cases he : s.base.run.recordingStatus = "expired"
    · simp [hi.expired he]
    · simp [he]
  refine ⟨⟨hi.resurrected, fun hb => ?_⟩, fun u _ => ⟨Iff.rfl, fun hu => ?_, fun he => ⟨?_, .refl _⟩⟩,
    trivial⟩
  · simp only [Store.marked, Bool.or_eq_true, decide_eq_true_eq]
    exact Or.inr hb
  · cases hkey : Call.expires (.markExpired key) with
    | false => exact hkept hkey
    | true =>
      rw [hc hkey] at hu
      cases hu
  · simp [Store.marked, he]

theorem wp_sweepEach (settings : Settings) (now : ℕ) (expiry : Option ℕ) (entries : List Entry)
    (n : Summary) : (expiring C).wp t k (sweepEach settings now expiry entries n)
      (fun _ _ => True) s := by
  induction entries generalizing n s with
  | nil => trivial
  | cons entry entries ih =>
    unfold sweepEach
    simp only
    split_ifs
    · exact ih _
    · refine Protocol.wp_bind.mpr (wp_ask.mpr fun s₁ _ hi _ c s₂ r he => ?_)
      simp only [exec] at he
      split_ifs at he
      · obtain ⟨rfl, rfl⟩ := Prod.mk.inj (Option.some.inj he)
        exact ⟨allowed_refl hi, ih _⟩
      · obtain ⟨rfl, rfl⟩ := Prod.mk.inj (Option.some.inj he)
        refine ⟨allowed_removed hi entry.key, ?_⟩
        refine Protocol.wp_bind.mpr (wp_ask.mpr fun s₃ _ hi₃ hc₃ c₃ s₄ r₃ he₃ => ?_)
        simp only [exec] at he₃
        split_ifs at he₃
        · obtain ⟨rfl, rfl⟩ := Prod.mk.inj (Option.some.inj he₃)
          exact ⟨allowed_refl hi₃, trivial⟩
        · obtain ⟨rfl, rfl⟩ := Prod.mk.inj (Option.some.inj he₃)
          exact ⟨allowed_marked hi₃ c₃.now hc₃.1, ih _⟩
    · exact ih _

theorem wp_sweep (settings : Settings) :
    (expiring C).wp t k (sweep settings) (fun _ _ => True) s := by
  refine Protocol.wp_bind.mpr (wp_ask.mpr fun s₁ _ hi _ c s₂ r he => ?_)
  obtain ⟨rfl, rfl⟩ := Prod.mk.inj (Option.some.inj he)
  refine ⟨allowed_refl hi, ?_⟩
  cases hdown : s₁.base.down with
  | true => trivial
  | false =>
    refine Protocol.wp_bind.mpr (wp_ask.mpr fun s₃ _ hi₃ _ c₃ s₄ now he₃ => ?_)
    obtain ⟨rfl, rfl⟩ := Prod.mk.inj (Option.some.inj he₃)
    refine ⟨allowed_refl hi₃, ?_⟩
    refine Protocol.wp_bind.mpr (wp_ask.mpr fun s₅ _ hi₅ _ c₅ s₆ r₅ he₅ => ?_)
    simp only [exec] at he₅
    split_ifs at he₅
    · obtain ⟨rfl, rfl⟩ := Prod.mk.inj (Option.some.inj he₅)
      exact ⟨allowed_refl hi₅, trivial⟩
    · obtain ⟨rfl, rfl⟩ := Prod.mk.inj (Option.some.inj he₅)
      exact ⟨allowed_refl hi₅, wp_sweepEach _ _ _ _ _⟩

theorem expiring_sound (C : Context) : (expiring C).Sound where
  idle _ _ := trivial
  final _ _ := trivial
  start {t k s s'} hi _ _ hb := by
    cases Option.some.inj hb
    refine ⟨allowed_refl hi, ?_⟩
    cases k with
    | sweep settings =>
      exact Protocol.wp_bind.mpr (Protocol.wp_mono (wp_sweep settings) fun _ _ _ => trivial)
    | recoverOnce =>
      refine Protocol.wp_bind.mpr (Protocol.wp_mono wp_recoverOnce fun _ _ _ => ?_)
      refine wp_ask.mpr fun s₁ _ hi₁ _ c s₂ r he => ?_
      obtain ⟨rfl, -⟩ := Prod.mk.inj (Option.some.inj he)
      exact ⟨allowed_quit hi₁, trivial⟩
  kill {t s} hi _ := by
    refine ⟨⟨⟨hi.resurrected, hi.expired⟩, fun u hu => ⟨?_, fun _ => rfl, fun h => ⟨h, .refl _⟩⟩,
      trivial⟩, trivial⟩
    simp [retention, Store.quit, hu]
  env {e s s'} hi _ he := by
    cases Option.some.inj he
    exact ⟨⟨hi.resurrected, hi.expired⟩,
      fun u => ⟨Iff.rfl, fun _ => rfl, fun h => ⟨h, .refl _⟩⟩⟩

/-- A failed run with what is in the object store. -/
def failedRun (C : Context) (run : BotRun) (objects : Objects) : (retention C).State :=
  (retention C).init
    { base := { run := run, objects := objects }
      expired := run.recordingStatus = "expired" }

/-- As long as no pass is in the middle of a restore when the run expires, and later ones find
nothing to restore, an expired recording is not resurrected. -/
theorem not_resurrected {run : BotRun} {objects : Objects}
    {es : List (Event Op Outcome Recording.World)} {s : (retention C).State}
    (hc : (notRestorable C).Meets (failedRun C run objects) es)
    (hr : (retention C).run (failedRun C run objects) es = some s) :
    s.shared.resurrected = false := by
  have hinit : (expiring C).Holds (failedRun C run objects) :=
    Protocol.holds_init ⟨rfl, fun h => decide_eq_true h⟩ fun _ => trivial
  exact ((expiring_sound C).run hinit hc hr).inv.resurrected

section runs

/-- A failed run with a recording and a checkpoint, both past their expiry. -/
def expiredRun : BotRun :=
  { id := 7, meetingUrl := "https://meet.google.com/abc-defg-hij"
    meetingKey := "meet.google.com/abc-defg-hij", idempotencyKey := none, displayName := none
    status := .failed, createdAt := 0, updatedAt := 0
    recordingUri := some ⟨"twin", .recording 7⟩, recordingSha256 := some "start"
    recordingStatus := "partial", recordingExpiresAt := some 500
    checkpointManifestUri := some ⟨"twin", .manifest 7⟩ }

def storedObjects : Objects
  | .recording 7 => some (.bytes [1])
  | key => checkpointed key

/-- The keys in the order in which the store lists them. -/
def listed : List Entry := [⟨.recording 7, 1, 0⟩, ⟨.chunk 7 0, 1, 0⟩, ⟨.manifest 7, 90, 0⟩]

def calls (t n : ℕ) : List (Event Op Outcome Recording.World) :=
  List.replicate n (.step t { now := 1000, entries := listed })

def begun (t n : ℕ) (k : Op) : List (Event Op Outcome Recording.World) := .start t k :: calls t n

def swept : Op := .sweep { retentionDays := 30, dryRun := false }

/-- The sweep has removed all objects when the pass looks for them. -/
theorem not_resurrected_swept : ∃ s, (retention example0).run
    (failedRun example0 expiredRun storedObjects) (begun 0 9 swept ++ begun 1 2 .recoverOnce) =
      some s ∧ s.shared.expired = true ∧ s.shared.resurrected = false := by
  have hsome : (((retention example0).run (failedRun example0 expiredRun storedObjects)
      (begun 0 9 swept ++ begun 1 2 .recoverOnce)).any fun s => s.shared.expired) = true := by
    decide +kernel
  obtain ⟨s, hs, hexpired⟩ := (Option.any_eq_true _ _).mp hsome
  exact ⟨s, hs, hexpired, not_resurrected (by decide +kernel) hs⟩

/-- The sweep has removed the recording and marked the run, and the pass restores it from the
checkpoints that are next on the list. -/
theorem resurrected_between : ¬∀ (C : Context) (run : BotRun) (objects : Objects)
    (es : List (Event Op Outcome Recording.World)) (s : (retention C).State),
    (retention C).run (failedRun C run objects) es = some s → s.shared.resurrected = false := by
  intro h
  have hsome : (((retention example0).run (failedRun example0 expiredRun storedObjects)
      (begun 0 5 swept ++ begun 1 5 .recoverOnce)).any fun s => s.shared.resurrected) = true := by
    decide +kernel
  obtain ⟨s, hs, hresurrected⟩ := (Option.any_eq_true _ _).mp hsome
  cases (h _ _ _ _ s hs).symm.trans hresurrected

end runs

end Fakery.Retention

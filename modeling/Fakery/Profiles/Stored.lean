import Fakery.Concurrent.Alone
import Fakery.Runtime.Attend
import Fakery.Sequential.Fallible

/-! The signed profile in the store: `attend` restores it before it begins and stores it when it
ends. -/
namespace Fakery.StoredProfile
open Fakery.Concurrent Fakery.Runtime Fakery.Sequential Fakery.Storage

/-- The contents of a profile directory are a `δ`. `sealed` is what `seal` gives with the token that
it draws, `unsealed` what `unseal` gives. -/
structure Codec (δ : Type) where
  unsealed : Bytes → Bytes
  unpack : Bytes → δ → δ
  pack : δ → Bytes
  sealed : Bytes → Bytes

/-- What each call raises, if it raises. -/
structure Failures where
  get : Option Raised := none
  unsealed : Option Raised := none
  unpack : Option Raised := none
  pack : Option Raised := none
  sealed : Option Raised := none
  put : Option Raised := none
  cancelHeartbeat : Option Raised := none
  clearBeat : Option Raised := none

/-- The object under the key of the profile, how often it has been written, the directory, and what
has been unpacked into it. -/
structure Shelf (δ : Type) where
  profile : Option Bytes
  puts : ℕ := 0
  directory : δ
  unpacked : Option Bytes := none

variable {δ : Type}

section programs

variable {α : Type} (K : Codec δ) (F : Failures) (hasBlob : Bool)

abbrev Act (δ : Type) := Fallible (Shelf δ) Raised

def fallible (raised : Option Raised) (x : Act δ α) : Act δ α :=
  match raised with
  | some e => Fallible.raise e
  | none => x

/-- `except Exception` around a part of a profile. -/
def rescued (body handler : Act δ α) : Act δ α :=
  body.except fun
    | .exception _ => handler
    | .cancelled => Fallible.raise .cancelled

def found (profile : Option Bytes) : Act δ (Option Bytes) :=
  match profile with
  | some data => pure (some data)
  | none => Fallible.raise (.exception (some "NoSuchKey"))

def getProfile : Act δ (Option Bytes) :=
  fallible F.get do
    let profile ← Fallible.read Shelf.profile
    found profile

/-- A missing key and any other exception of `get` differ in the log only. -/
def restoreProfile : Act δ Unit :=
  if hasBlob then do
    match ← rescued (getProfile F) (pure none) with
    | none => pure ()
    | some data => do
      let plain ← fallible F.unsealed (pure (K.unsealed data))
      fallible F.unpack (Fallible.update fun s =>
        { s with directory := K.unpack plain s.directory, unpacked := some plain })
  else pure ()

def putProfile : Act δ Unit := do
  let packed ← fallible F.pack (Fallible.read fun s => K.pack s.directory)
  let data ← fallible F.sealed (pure (K.sealed packed))
  fallible F.put (Fallible.update fun s => { s with profile := some data, puts := s.puts + 1 })

def persistProfile : Act δ Unit :=
  if hasBlob then rescued (putProfile K F) (pure ()) else pure ()

end programs

abbrev Answer (i : Call) : Type := Except Raised (Reply i)

/-- What any other call does: the browser writes to the directory. -/
structure Outcome (δ : Type) where
  directory : δ
  answer : (i : Call) → Answer i

def performed {α : Type} (x : Except Raised α × Shelf δ) : Option (Shelf δ × Except Raised α) :=
  some (x.2, x.1)

def exec (K : Codec δ) (F : Failures) (hasBlob : Bool) (_ : ℕ) :
    (i : Call) → Outcome δ → Shelf δ → Option (Shelf δ × Answer i)
  | .restoreProfile, _, s => performed (restoreProfile K F hasBlob s)
  | .persistProfile, _, s => performed (persistProfile K F hasBlob s)
  | .cancelHeartbeat, _, s => performed (fallible F.cancelHeartbeat (pure ()) s)
  | .clearBeat, _, s => performed (fallible F.clearBeat (pure ()) s)
  | i, c, s => some ({ s with directory := c.directory }, c.answer i)

/-- A process that attends on the signed tier, and no other one that writes the profile. -/
def attending (K : Codec δ) (F : Failures) (hasBlob : Bool) :
    Machine Call Answer Unit (Shelf δ) (Outcome δ) Unit where
  prog _ := .done ()
  begin _ _ := some
  exec := exec K F hasBlob
  kill _ := id
  env _ _ := none

def perform (i : Call) : Task Call Answer Raised (Reply i) := ExceptT.mk (Prog.ask i)

section property

/-- Whether `except Exception` catches it. -/
def caught : Option Raised → Bool
  | some (.exception _) => true
  | _ => false

/-- The end of `attend` does not come to store a profile. -/
def Failures.StopsPersist (F : Failures) : Prop :=
  F.cancelHeartbeat.isSome = true ∨ F.clearBeat = some .cancelled ∨ F.pack.isSome = true ∨
    F.sealed.isSome = true ∨ F.put.isSome = true

/-- A stored profile that cannot be fetched is not replaced, for nothing is stored. -/
def Safe (F : Failures) (hasBlob : Bool) (s : Shelf δ) : Prop :=
  hasBlob = true → s.profile.isSome = true → caught F.get = true → F.StopsPersist

def Unchanged (s s' : Shelf δ) : Prop := s'.profile = s.profile ∧ s'.puts = s.puts

/-- The object is the sealed pack of a directory that holds the one stored before. -/
def Derived (K : Codec δ) (s s' : Shelf δ) : Prop :=
  s'.profile = some (K.sealed (K.pack s'.directory)) ∧
    ∀ data, s.profile = some data → s'.unpacked = some (K.unsealed data)

end property

variable {K : Codec δ} {F : Failures} {hasBlob : Bool} {m : Meeting} {s s' : Shelf δ} {α : Type}

section profiles

/-- The store and what is unpacked stay as they are. -/
structure Same (s s' : Shelf δ) : Prop where
  profile : s'.profile = s.profile
  puts : s'.puts = s.puts
  unpacked : s'.unpacked = s.unpacked

theorem Same.refl (s : Shelf δ) : Same s s := ⟨rfl, rfl, rfl⟩

theorem Same.trans {s'' : Shelf δ} (h : Same s s') (h' : Same s' s'') : Same s s'' :=
  ⟨h'.profile.trans h.profile, h'.puts.trans h.puts, h'.unpacked.trans h.unpacked⟩

theorem rescued_ok {body handler : Act δ α} {a : α} (h : body s = (.ok a, s')) :
    rescued body handler s = (.ok a, s') := by
  unfold rescued Fallible.except
  rw [h]

theorem rescued_exception {body handler : Act δ α} {code : Option String}
    (h : body s = (.error (.exception code), s')) : rescued body handler s = handler s' := by
  unfold rescued Fallible.except
  rw [h]

theorem rescued_cancelled {body handler : Act δ α} (h : body s = (.error .cancelled, s')) :
    rescued body handler s = (.error .cancelled, s') := by
  unfold rescued Fallible.except
  rw [h]
  rfl

/-- What `get` comes to. -/
theorem getProfile_eq (s : Shelf δ) :
    (caught F.get = true ∧ rescued (getProfile F) (pure none) s = (.ok none, s)) ∨
    (caught F.get = false ∧ rescued (getProfile F) (pure none) s = (.error .cancelled, s)) ∨
    caught F.get = false ∧ rescued (getProfile F) (pure none) s = (.ok s.profile, s) := by
  match hget : F.get with
  | some (.exception code) =>
    have hraised : getProfile F s = (.error (.exception code), s) := by
      unfold getProfile
      rw [hget]
      rfl
    exact Or.inl ⟨rfl, rescued_exception hraised⟩
  | some .cancelled =>
    have hraised : getProfile F s = (.error .cancelled, s) := by
      unfold getProfile
      rw [hget]
      rfl
    exact Or.inr (Or.inl ⟨rfl, rescued_cancelled hraised⟩)
  | none =>
    refine Or.inr (Or.inr ⟨rfl, ?_⟩)
    have hfound : getProfile F s = found s.profile s := by
      unfold getProfile
      rw [hget]
      rfl
    cases hprofile : s.profile with
    | some data =>
      rw [hprofile] at hfound
      exact rescued_ok hfound
    | none =>
      rw [hprofile] at hfound
      exact rescued_exception hfound

/-- After a restore that does not raise, a stored profile is unpacked unless `get` has raised. -/
theorem restoreProfile_eq (K : Codec δ) (F : Failures) (hasBlob : Bool)
    (hs : s.unpacked = none) : ∃ r s₁,
    restoreProfile K F hasBlob s = (r, s₁) ∧ Unchanged s s₁ ∧
      (∀ e, r = .error e → caught F.get = false) ∧
      (r = .ok () → hasBlob = true → ∀ data, s.profile = some data →
        s₁.unpacked = if caught F.get then none else some (K.unsealed data)) := by
  unfold restoreProfile
  cases hasBlob with
  | false => exact ⟨_, s, rfl, ⟨rfl, rfl⟩, nofun, fun _ => nofun⟩
  | true =>
    rw [if_pos rfl]
    rcases getProfile_eq (F := F) s with ⟨hget, hrescued⟩ | ⟨hget, hrescued⟩ | ⟨hget, hrescued⟩
    · refine ⟨_, s, Fallible.bind_ok hrescued, ⟨rfl, rfl⟩, nofun, fun _ _ _ _ => ?_⟩
      rw [if_pos hget]
      exact hs
    · exact ⟨_, s, Fallible.bind_error hrescued, ⟨rfl, rfl⟩, fun _ _ => hget, nofun⟩
    · rw [Fallible.bind_ok hrescued, hget]
      cases hprofile : s.profile with
      | none => exact ⟨_, s, rfl, ⟨rfl, rfl⟩, nofun, fun _ _ _ => nofun⟩
      | some data =>
        dsimp only
        cases hunsealed : F.unsealed with
        | some e => exact ⟨.error e, s, rfl, ⟨rfl, rfl⟩, fun _ _ => rfl, nofun⟩
        | none =>
          cases hunpack : F.unpack with
          | some e => exact ⟨.error e, s, rfl, ⟨rfl, rfl⟩, fun _ _ => rfl, nofun⟩
          | none =>
            refine ⟨_, _, rfl, ⟨rfl, rfl⟩, nofun, fun _ _ other hother => ?_⟩
            cases hother
            rfl

/-- A persist stores the pack of the directory, or leaves everything as it is. -/
theorem persistProfile_eq (K : Codec δ) (F : Failures) (hasBlob : Bool) (s : Shelf δ) :
    ∃ r s', persistProfile K F hasBlob s = (r, s') ∧
    ((hasBlob = false ∨ F.pack.isSome = true ∨ F.sealed.isSome = true ∨ F.put.isSome = true) ∧
        s' = s ∨
      hasBlob = true ∧ F.pack = none ∧ F.sealed = none ∧ F.put = none ∧ s' =
        { s with profile := some (K.sealed (K.pack s.directory)), puts := s.puts + 1 }) := by
  unfold persistProfile
  cases hasBlob with
  | false => exact ⟨_, s, rfl, Or.inl ⟨Or.inl rfl, rfl⟩⟩
  | true =>
    rw [if_pos rfl]
    have hraised : ∀ e, putProfile K F s = (.error e, s) →
        ∃ r, rescued (putProfile K F) (pure ()) s = (r, s) := by
      intro e h
      cases e with
      | exception code => exact ⟨_, rescued_exception h⟩
      | cancelled => exact ⟨_, rescued_cancelled h⟩
    cases hpack : F.pack with
    | some e =>
      obtain ⟨r, hr⟩ := hraised e (by unfold putProfile; rw [hpack]; rfl)
      exact ⟨r, s, hr, Or.inl ⟨Or.inr (Or.inl rfl), rfl⟩⟩
    | none =>
      cases hsealed : F.sealed with
      | some e =>
        obtain ⟨r, hr⟩ := hraised e (by unfold putProfile; rw [hpack, hsealed]; rfl)
        exact ⟨r, s, hr, Or.inl ⟨Or.inr (Or.inr (Or.inl rfl)), rfl⟩⟩
      | none =>
        cases hput : F.put with
        | some e =>
          obtain ⟨r, hr⟩ := hraised e (by unfold putProfile; rw [hpack, hsealed, hput]; rfl)
          exact ⟨r, s, hr, Or.inl ⟨Or.inr (Or.inr (Or.inr rfl)), rfl⟩⟩
        | none =>
          have hstored : ∃ s', putProfile K F s = (.ok (), s') ∧ s' =
              { s with profile := some (K.sealed (K.pack s.directory)), puts := s.puts + 1 } := by
            refine ⟨_, ?_, rfl⟩
            unfold putProfile
            rw [hpack, hsealed, hput]
            rfl
          obtain ⟨s', hput, hs'⟩ := hstored
          exact ⟨_, s', rescued_ok hput, Or.inr ⟨rfl, rfl, rfl, rfl, hs'⟩⟩

end profiles

section attendance

/-- The calls between the two ends of `attend`. -/
def Between (i : Call) : Prop := i.attending = true ∨ i.joins = true

theorem exec_between {i : Call} {c : Outcome δ} {r : Answer i} (hi : Between i)
    (h : exec K F hasBlob 0 i c s = some (s', r)) : Same s s' := by
  cases i with
  | restoreProfile | persistProfile | cancelHeartbeat | clearBeat =>
    rcases hi with hi | hi <;> cases hi
  | _ =>
    obtain ⟨rfl, rfl⟩ := Prod.mk.inj (Option.some.inj h)
    exact ⟨rfl, rfl, rfl⟩

theorem uses_between : (do
    perform (.transaction (.advance .joining))
    afterJoining perform hasBlob m : Task Call Answer Raised Unit).run.Uses Between := by
  apply Task.uses_bind
  · exact ⟨Or.inr rfl, fun _ => trivial⟩
  · intro _
    apply uses_afterJoining
    intro i hi
    exact ⟨Or.inl hi, fun _ => trivial⟩

/-- Between the two ends of `attend` nothing touches the store. -/
theorem wp_between {β : Type} {p : Prog Call Answer β} (hp : p.Uses Between) :
    (Protocol.solo (attending K F hasBlob) 0).wp 0 () p (fun _ => Same s) s := by
  refine Protocol.wp_frame hp (Same.refl s) (fun u u' hu _ h => ?_) fun i c u u' r hi _ _ h he => ?_
  · cases hu rfl
    exact h
  · exact ⟨⟨trivial, fun v hv heq => absurd heq hv, trivial⟩, h.trans (exec_between hi he)⟩

/-- The end of `attend` stores the pack of the directory, unless something stops it. -/
def Stores (K : Codec δ) (F : Failures) (hasBlob : Bool) (s s' : Shelf δ) : Prop :=
  (hasBlob = false ∨ F.StopsPersist) ∧ Same s s' ∨
    hasBlob = true ∧ ¬F.StopsPersist ∧ s'.profile = some (K.sealed (K.pack s'.directory)) ∧
      s'.puts = s.puts + 1 ∧ s'.unpacked = s.unpacked

theorem performed_inj {x : Except Raised α × Shelf δ} {r : Except Raised α}
    (h : performed x = some (s', r)) : x = (r, s') := by
  obtain ⟨h₁, h₂⟩ := Prod.mk.inj (Option.some.inj h)
  exact Prod.ext h₂ h₁

theorem fallible_pure_eq (raised : Option Raised) (s : Shelf δ) :
    fallible raised (pure ()) s = (match raised with
      | some e => .error e
      | none => .ok (), s) := by
  cases raised <;> rfl

theorem wp_cleanUp (s : Shelf δ) : (Protocol.solo (attending K F hasBlob) 0).wp 0 ()
    (cleanUp perform).run (fun _ => Stores K F hasBlob s) s := by
  have hstopped : F.StopsPersist → Stores K F hasBlob s s := fun h => Or.inl ⟨Or.inr h, Same.refl s⟩
  refine Protocol.wp_task_bind.mpr (Protocol.wp_solo_ask.mpr fun c s₁ r he => ?_)
  have hheartbeat := performed_inj he
  rw [fallible_pure_eq] at hheartbeat
  cases hcancel : F.cancelHeartbeat with
  | some e =>
    rw [hcancel] at hheartbeat
    cases hheartbeat
    exact hstopped (Or.inl (by rw [hcancel]; rfl))
  | none =>
    rw [hcancel] at hheartbeat
    cases hheartbeat
    refine Protocol.wp_task_bind.mpr (Protocol.wp_rescue.mpr ?_)
    refine Protocol.wp_solo_ask.mpr fun c s₁ r he => ?_
    have hbeat := performed_inj he
    rw [fallible_pure_eq] at hbeat
    have hpersist : F.clearBeat ≠ some .cancelled →
        (Protocol.solo (attending K F hasBlob) 0).wp 0 () (perform .persistProfile).run
          (fun _ => Stores K F hasBlob s) s := by
      intro hclear
      refine Protocol.wp_solo_ask.mpr fun c s' r he => ?_
      obtain ⟨r', s₂, heq, hcase⟩ := persistProfile_eq K F hasBlob s
      cases heq.symm.trans (performed_inj he)
      rcases hcase with ⟨hstop, rfl⟩ | ⟨hblob, hpack, hsealed, hput, rfl⟩
      · rcases hstop with hblob | hstop
        · exact Or.inl ⟨Or.inl hblob, Same.refl _⟩
        · exact hstopped (Or.inr (Or.inr hstop))
      · refine Or.inr ⟨hblob, ?_, rfl, rfl, rfl⟩
        unfold Failures.StopsPersist
        simp [hcancel, hclear, hpack, hsealed, hput]
    cases hclear : F.clearBeat with
    | none =>
      rw [hclear] at hbeat
      cases hbeat
      exact hpersist (by simp [hclear])
    | some e =>
      rw [hclear] at hbeat
      cases hbeat
      cases e with
      | exception code => exact hpersist (by simp [hclear])
      | cancelled => exact hstopped (Or.inr (Or.inl hclear))

/-- The restore has gone through: a stored profile is unpacked unless `get` has raised. -/
structure Restored (K : Codec δ) (F : Failures) (hasBlob : Bool) (s s₁ : Shelf δ) : Prop where
  unchanged : Unchanged s s₁
  unpacked : hasBlob = true → ∀ data, s.profile = some data →
    s₁.unpacked = if caught F.get then none else some (K.unsealed data)

/-- `attend` ends in its restore, or with a profile that its end has stored. -/
def Ended (K : Codec δ) (F : Failures) (hasBlob : Bool) (s s' : Shelf δ) : Prop :=
  caught F.get = false ∧ Unchanged s s' ∨
    ∃ s₁, Restored K F hasBlob s s₁ ∧ Stores K F hasBlob s₁ s'

theorem wp_attend (hs : s.unpacked = none) : (Protocol.solo (attending K F hasBlob) 0).wp 0 ()
    (attend perform hasBlob m).run (fun _ => Ended K F hasBlob s) s := by
  refine Protocol.wp_task_bind.mpr (Protocol.wp_solo_ask.mpr fun c s₁ r he => ?_)
  obtain ⟨r', s₂, heq, hunchanged, hraised, hunpacked⟩ :=
    restoreProfile_eq K F hasBlob hs
  cases heq.symm.trans (performed_inj he)
  cases r with
  | error e => exact Or.inl ⟨hraised e rfl, hunchanged⟩
  | ok u =>
    refine Protocol.wp_ensuring.mpr ?_
    refine Protocol.wp_mono (wp_between uses_between) fun q s₂ hsame => ?_
    refine Protocol.wp_mono (wp_cleanUp s₂) fun q' s' hstores => ?_
    have hrestored : Restored K F hasBlob s s₂ := by
      constructor
      · exact ⟨hsame.profile.trans hunchanged.1, hsame.puts.trans hunchanged.2⟩
      · intro hblob data hdata
        exact hsame.unpacked.trans (hunpacked rfl hblob data hdata)
    have hended : Ended K F hasBlob s s' := Or.inr ⟨s₂, hrestored, hstores⟩
    cases q' <;> exact hended

end attendance

/-- The profile is kept or followed by one that holds it, exactly when a profile that cannot be
fetched is not replaced. -/
theorem profile_kept_iff (K : Codec δ) (F : Failures) (hasBlob : Bool) (m : Meeting)
    (s s' : Shelf δ) (r : Except Raised Unit) (hs : s.unpacked = none)
    (hrun : (attending K F hasBlob).Alone 0 (fun _ _ => True) (attend perform hasBlob m).run
      s s' r) : (Unchanged s s' ∨ Derived K s s') ↔ Safe F hasBlob s := by
  rcases Machine.Alone.of_wp (wp_attend hs) hrun with ⟨hget, hunchanged⟩ | ⟨s₁, hrestored, hstores⟩
  · constructor
    · intro _ _ _ hraised
      cases hget.symm.trans hraised
    · intro _
      exact Or.inl hunchanged
  · rcases hstores with ⟨hstop, hsame⟩ | ⟨hblob, hgoes, hstored, hputs, hunpacked⟩
    · constructor
      · intro _ hblob _ _
        rcases hstop with hnone | hstop
        · cases hblob.symm.trans hnone
        · exact hstop
      · intro _
        exact Or.inl ⟨hsame.profile.trans hrestored.unchanged.1,
          hsame.puts.trans hrestored.unchanged.2⟩
    · constructor
      · intro hkept _ hsome hget
        obtain ⟨data, hdata⟩ := Option.isSome_iff_exists.mp hsome
        have hlost : s'.unpacked = none := by
          rw [hunpacked, hrestored.unpacked hblob data hdata, if_pos hget]
        rcases hkept with hunchanged | hderived
        · have hwritten : s'.puts = s.puts + 1 := by rw [hputs, hrestored.unchanged.2]
          have hsame : s'.puts = s.puts := hunchanged.2
          omega
        · cases hlost.symm.trans (hderived.2 data hdata)
      · intro hsafe
        refine Or.inr ⟨hstored, fun data hdata => ?_⟩
        have hsome : s.profile.isSome = true := by
          rw [hdata]
          rfl
        have hget : ¬caught F.get = true := fun hget => hgoes (hsafe hblob hsome hget)
        rw [hunpacked, hrestored.unpacked hblob data hdata, if_neg hget]

section counterexample

/-- A directory is its bytes, and nothing is sealed. -/
def plain : Codec Bytes where
  unsealed data := data
  unpack data _ := data
  pack directory := directory
  sealed data := data

/-- The run goes on with an empty directory, and the page ends before the bot is let in. -/
def ordinary : Outcome Bytes where
  directory := [2]
  answer
    | .joinMeeting => .error (.exception (some "denied"))
    | .getRun => .error (.exception none)
    | .waitAdmitted | .waitMeetingEnded => .ok false
    | .requestedStopReason | .restorePrefix => .ok none
    | .restoreProfile | .persistProfile | .transaction _ | .createHeartbeat | .cancelHeartbeat
    | .clearBeat | .openBrowser | .closeBrowser | .pause | .leaveMeeting => .ok ()

def storedProfile : Shelf Bytes := { profile := some [1], directory := [] }

def replacedProfile : Shelf Bytes := { profile := some [2], puts := 1, directory := [2] }

/-- What was stored is fetched, and the directory holds it. -/
theorem profile_kept_iff_fetched : let s' := { replacedProfile with unpacked := some [1] }
    Unchanged storedProfile s' ∨ Derived plain storedProfile s' := by
  have halone : (attending plain {} true).alone 0 (fun _ => ordinary) (attend perform true {}).run
      storedProfile = some ({ replacedProfile with unpacked := some [1] },
        .error (.exception (some "denied"))) := rfl
  exact (profile_kept_iff plain {} true {} _ _ _ rfl (.of_alone (fun _ => trivial) halone)).mpr
    fun _ _ hget => absurd hget (by decide)

/-- `get` has raised another error than that of a missing key. -/
def unreachable : Failures := { get := some (.exception (some "ServiceUnavailable")) }

theorem not_profile_kept : ¬∀ (K : Codec Bytes) (F : Failures) (hasBlob : Bool) (m : Meeting)
    (s s' : Shelf Bytes) (r : Except Raised Unit), s.unpacked = none →
      (attending K F hasBlob).Alone 0 (fun _ _ => True) (attend perform hasBlob m).run s s' r →
        s'.profile = s.profile ∨ Derived K s s' := by
  intro h
  have halone : (attending plain unreachable true).alone 0 (fun _ => ordinary)
      (attend perform true {}).run storedProfile =
        some (replacedProfile, .error (.exception (some "denied"))) := rfl
  rcases h plain unreachable true {} _ _ _ rfl (.of_alone (fun _ => trivial) halone)
    with hsame | hderived
  · cases hsame
  · cases hderived.2 [1] rfl

end counterexample

end Fakery.StoredProfile

import Fakery.Recording.Writers

/-! What the operations may assume of one another: who was the last to store the recording, and
whether its transaction is still to come. -/
namespace Fakery.Recording
open Fakery.Bots Fakery.Concurrent Fakery.Core Fakery.Storage

/-- The transactions that write the recording columns, on the rows on which they do. -/
def Tx.stores (run : BotRun) : Tx → Bool
  | .persistRecording (some _) => canTransition run.status .processing
  | .storeRecovered _ => true
  | .finalize _ _ _ _ => !decide (run.recordingUri.isSome ∨ run.status ≠ .failed)
  | _ => false

def Call.tx : Call → Option Tx
  | .transaction tx => some tx
  | _ => none

def Store.accepts (s : Store) (tx : Tx) : Bool := !s.down && tx.stores s.run

/-- When an operation that has put a recording comes to its transaction: if its put was the last
one, the transaction is accepted, or there is no recording in the row or one with that checksum.
If another put came after it, the transaction is not accepted, or that of the other one is still
to come. -/
def Settles (C : Context) (t : ℕ) (s : Store) (accepted : Bool) : Prop :=
  ∀ put ∈ s.lastPut, s.unsettled t = true →
    if put.1 = t then accepted = true ∨ s.run.recordingUri = none ∨
      s.run.recordingSha256 = some (C.sha256 put.2)
    else accepted = false ∨ s.unsettled put.1 = true

instance (C : Context) (t : ℕ) (s : Store) (accepted : Bool) :
    Decidable (Settles C t s accepted) :=
  inferInstanceAs (Decidable (∀ put ∈ s.lastPut, _))

/-- An operation that is cut off counts as one whose transaction is not accepted. -/
def settles (C : Context) : (writers C).Condition where
  call t _ i s := ∀ tx ∈ i.tx, Settles C t s (s.accepts tx)
  kill t s := Settles C t s false

instance (C : Context) (t : ℕ) (k : Op) (s : Store) : Decidable ((settles C).start t k s) :=
  isTrue trivial

instance (C : Context) (t : ℕ) (k : Op) (i : Call) (s : Store) :
    Decidable ((settles C).call t k i s) :=
  inferInstanceAs (Decidable (∀ tx ∈ i.tx, _))

instance (C : Context) (t : ℕ) (s : Store) : Decidable ((settles C).kill t s) :=
  inferInstanceAs (Decidable (Settles C t s false))

instance (C : Context) (e : World) (s : Store) : Decidable ((settles C).env e s) := isTrue trivial

structure Inv (C : Context) (s : Store) : Prop where
  uri : ∀ uri, s.run.recordingUri = some uri → uri = ⟨C.bucket, .recording C.bot⟩
  object : ∀ put ∈ s.lastPut, s.objects (.recording C.bot) = some (.bytes put.2)
  served : ∀ uri, s.run.recordingUri = some uri → ∃ put ∈ s.lastPut,
    s.unsettled put.1 = true ∨ s.run.recordingSha256 = some (C.sha256 put.2)

structure Rely (t : ℕ) (s s' : Store) : Prop where
  unsettled : s'.unsettled t = s.unsettled t
  own : ∀ put ∈ s'.lastPut, put.1 = t → put ∈ s.lastPut
  some : s.lastPut.isSome → s'.lastPut.isSome

theorem Rely.refl (t : ℕ) (s : Store) : Rely t s s := ⟨rfl, fun _ h _ => h, id⟩

theorem Rely.trans {t : ℕ} {a b c : Store} (h : Rely t a b) (h' : Rely t b c) : Rely t a c :=
  ⟨h'.unsettled.trans h.unsettled, fun put hp ht => h.own put (h'.own put hp ht) ht,
    fun hs => h'.some (h.some hs)⟩

def settling (C : Context) : Protocol (writers C) where
  cond := settles C
  inv := Inv C
  rely := Rely
  idle t s := s.unsettled t = false
  final t s := s.unsettled t = false
  rely_refl := Rely.refl
  rely_trans _ := Rely.trans

/-- The operation has put `data`, and its transaction comes next. -/
structure HasPut (t : ℕ) (data : Bytes) (s : Store) : Prop where
  unsettled : s.unsettled t = true
  some : s.lastPut.isSome
  own : ∀ put ∈ s.lastPut, put.1 = t → put.2 = data

/-- The operation has put nothing that is not settled. -/
def Calm (t : ℕ) (s : Store) : Prop := s.unsettled t = false

variable {C : Context} {t u : ℕ} {k : Op} {i : Call} {c : Outcome} {s s' : Store} {tx : Tx}
  {data : Bytes} {α : Type}

theorem Calm.rely (h : Calm t s) (hr : Rely t s s') : Calm t s' := hr.unsettled.trans h

theorem HasPut.rely (h : HasPut t data s) (hr : Rely t s s') : HasPut t data s' :=
  ⟨hr.unsettled.trans h.unsettled, hr.some h.some, fun put hp ht => h.own put (hr.own put hp ht) ht⟩

theorem wp_ask {Q : Answer i → Store → Prop} : (settling C).wp t k (ask i) Q s ↔
    ∀ s₁, Rely t s s₁ → Inv C s₁ → (settles C).call t k i s₁ →
      ∀ c s₂ r, exec C t i c s₁ = some (s₂, r) → (settling C).Allowed t s₁ s₂ ∧ Q r s₂ := Iff.rfl

theorem wp_bind {p : Prg α} {β : Type} {f : α → Prg β} {Q : β → Store → Prop} :
    (settling C).wp t k (p >>= f) Q s ↔
      (settling C).wp t k p (fun a s => (settling C).wp t k (f a) Q s) s := Protocol.wp_bind

theorem allowed_refl (h : Inv C s) : (settling C).Allowed t s s :=
  ⟨h, fun u _ => Rely.refl u s, trivial⟩

/-- The calls that leave everything as it is. -/
theorem wp_same {Q : Answer i → Store → Prop} (hsame : ∀ c s s' r, exec C t i c s = some (s', r) →
    s' = s) (h : ∀ s₁, Rely t s s₁ → ∀ r, Q r s₁) : (settling C).wp t k (ask i) Q s := by
  refine wp_ask.mpr fun s₁ hr hi _ c s₂ r he => ?_
  obtain rfl := hsame c s₁ s₂ r he
  exact ⟨allowed_refl hi, h _ hr r⟩

theorem exec_utcnow {r : ℕ} (he : exec C t .utcnow c s = some (s', r)) : s' = s :=
  (Prod.mk.inj (Option.some.inj he)).1.symm

theorem exec_readRun {r : BotRun} (he : exec C t .readRun c s = some (s', r)) : s' = s :=
  (Prod.mk.inj (Option.some.inj he)).1.symm

theorem exec_get {key : Key} {r : Except Unit Object}
    (he : exec C t (.get key) c s = some (s', r)) : s' = s := by
  simp only [exec] at he
  split at he
  · exact (Prod.mk.inj (Option.some.inj he)).1.symm
  · exact (Prod.mk.inj (Option.some.inj he)).1.symm

/-- A put of a checkpoint. -/
theorem wp_put_checkpoint {key : Key} {object : Object} (hk : ∀ bot, key ≠ .recording bot)
    (h : Calm t s) : (settling C).wp t k (ask (.put key object)) (fun _ => Calm t) s := by
  refine wp_ask.mpr fun s₁ hr hi _ c s₂ r he => ?_
  have hstore : s₁.store t key object =
      { s₁ with objects := Function.update s₁.objects key (some object) } := by
    cases key with
    | recording bot => exact absurd rfl (hk bot)
    | chunk bot n => rfl
    | manifest bot => rfl
  simp only [exec, hstore] at he
  split_ifs at he with hraises
  · obtain ⟨rfl, -⟩ := Prod.mk.inj (Option.some.inj he)
    exact ⟨allowed_refl hi, h.rely hr⟩
  · obtain ⟨rfl, -⟩ := Prod.mk.inj (Option.some.inj he)
    have hcalm : s₁.unsettled t = false := h.rely hr
    refine ⟨⟨⟨hi.uri, fun put hp => ?_, hi.served⟩, fun u _ => ⟨rfl, fun _ hp _ => hp, id⟩,
      trivial⟩, hcalm⟩
    have hne : (Key.recording C.bot) ≠ key := (hk C.bot).symm
    simp only [Function.update_of_ne hne]
    exact hi.object put hp

variable (data) in
theorem wp_put_recording (h : Calm t s) :
    (settling C).wp t k (ask (.put (.recording C.bot) (.bytes data))) (fun r s =>
      (∀ uri, r = .ok uri → uri = ⟨C.bucket, .recording C.bot⟩ ∧ HasPut t data s) ∧
        ∀ e, r = .error e → Calm t s) s := by
  refine wp_ask.mpr fun s₁ hr hi _ c s₂ r he => ?_
  simp only [exec] at he
  split_ifs at he with hraises
  · obtain ⟨rfl, rfl⟩ := Prod.mk.inj (Option.some.inj he)
    exact ⟨allowed_refl hi, nofun, fun _ _ => h.rely hr⟩
  · obtain ⟨rfl, rfl⟩ := Prod.mk.inj (Option.some.inj he)
    have hlast : (s₁.store t (.recording C.bot) (.bytes data)).lastPut = some (t, data) := rfl
    have hself : (s₁.store t (.recording C.bot) (.bytes data)).unsettled t = true := by
      simp [Store.store]
    have hput : HasPut t data (s₁.store t (.recording C.bot) (.bytes data)) := by
      refine ⟨hself, rfl, fun put hp _ => ?_⟩
      cases Option.some.inj (hlast.symm.trans hp)
      rfl
    refine ⟨⟨⟨hi.uri, fun put hp => ?_, fun uri huri => ⟨(t, data), hlast, Or.inl hself⟩⟩,
      fun u hu => ⟨?_, fun put hp ht => ?_, fun _ => rfl⟩, trivial⟩, ?_, nofun⟩
    · cases Option.some.inj (hlast.symm.trans hp)
      simp [Store.store]
    · simp [Store.store, Function.update_of_ne hu]
    · cases Option.some.inj (hlast.symm.trans hp)
      exact absurd ht.symm hu
    · exact fun uri hu => ⟨(Except.ok.inj hu).symm, hput⟩

/-- A transaction that stores `data` under its own URI and checksum. -/
def Tx.Puts (C : Context) (data : Bytes) : Tx → Prop
  | .persistRecording (some a) =>
    a.uri = some ⟨C.bucket, .recording C.bot⟩ ∧ a.sha256 = C.sha256 data
  | .storeRecovered a => a.uri = some ⟨C.bucket, .recording C.bot⟩ ∧ a.sha256 = C.sha256 data
  | .finalize uri sha256 _ _ => uri = ⟨C.bucket, .recording C.bot⟩ ∧ sha256 = C.sha256 data
  | _ => False

/-- A transaction that leaves the recording columns alone, or takes the recording out of them. -/
def Tx.Plain : Tx → Prop
  | .persistRecording (some a) => a.uri = none
  | .storeRecovered _ => False
  | .finalize _ _ _ _ => False
  | _ => True

open BotRun in
theorem apply_plain {heartbeat : Bool} {now : ℕ} {run run' : BotRun} (htx : tx.Plain)
    (h : tx.apply heartbeat now run = .ok run') :
    run'.recordingUri = none ∨ SameRecording run run' := by
  cases tx with
  | persistRecording artifact =>
    cases artifact with
    | none => exact Or.inr (sameRecording_advance h)
    | some a =>
      have hs : SameRecording (run.recorded a) run' := sameRecording_advance h
      exact Or.inl (hs.1.trans htx)
  | storeRecovered a => exact htx.elim
  | finalize uri sha256 size days => exact htx.elim
  | setCheckpointManifest uri =>
    cases Except.ok.inj h
    exact Or.inr ⟨rfl, rfl⟩
  | failRun code => exact Or.inr (sameRecording_failRun h)
  | sweepOrphans staleAfter => exact Or.inr (sameRecording_swept h)

open BotRun in
theorem apply_puts {heartbeat : Bool} {now : ℕ} {run run' : BotRun} (htx : tx.Puts C data)
    (h : tx.apply heartbeat now run = .ok run') :
    tx.stores run = true ∧ run'.recordingUri = some ⟨C.bucket, .recording C.bot⟩ ∧
        run'.recordingSha256 = some (C.sha256 data) ∨
      tx.stores run = false ∧ SameRecording run run' := by
  cases tx with
  | persistRecording artifact =>
    cases artifact with
    | none => exact htx.elim
    | some a =>
      obtain ⟨huri, hsha⟩ := htx
      rcases @advance_ok (run.recorded a) _ _ _ h with ⟨-, -, ht⟩ | ⟨rfl, hc⟩
      · cases ht
      · exact Or.inl ⟨hc, huri, congrArg some hsha⟩
  | storeRecovered a =>
    obtain ⟨huri, hsha⟩ := htx
    cases Except.ok.inj h
    exact Or.inl ⟨rfl, huri, congrArg some hsha⟩
  | finalize uri sha256 size days =>
    obtain ⟨rfl, rfl⟩ := htx
    cases Except.ok.inj h
    by_cases hf : run.recordingUri.isSome ∨ run.status ≠ .failed
    · refine Or.inr ⟨?_, ?_⟩
      · rw [Tx.stores, decide_eq_true hf]
        rfl
      · rw [finalized, if_pos hf]
        exact ⟨rfl, rfl⟩
    · refine Or.inl ⟨?_, ?_, ?_⟩
      · rw [Tx.stores, decide_eq_false hf]
        rfl
      · rw [finalized, if_neg hf]
      · rw [finalized, if_neg hf]
  | setCheckpointManifest uri => exact htx.elim
  | failRun code => exact htx.elim
  | sweepOrphans staleAfter => exact htx.elim

theorem apply_error {heartbeat : Bool} {now : ℕ} {run : BotRun} {e : TwinError}
    (htx : tx.Puts C data) (h : tx.apply heartbeat now run = .error e) : tx.stores run = false := by
  cases tx with
  | persistRecording artifact =>
    cases artifact with
    | none => exact htx.elim
    | some a => exact @BotRun.advance_error (run.recorded a) _ _ _ h
  | storeRecovered a => cases h
  | finalize uri sha256 size days => cases h
  | setCheckpointManifest uri => exact htx.elim
  | failRun code => exact htx.elim
  | sweepOrphans staleAfter => exact htx.elim

/-- What a transaction can do to the state. -/
theorem exec_transaction {r : Except TwinError Unit}
    (he : exec C t (.transaction tx) c s = some (s', r)) :
    (∃ run run', tx.apply c.heartbeat c.now s.run = .ok run ∧ BotRun.SameRecording run run' ∧
        s.down = false ∧ s' = (s.setRun run').settle t) ∨
      s' = s.settle t ∧ (s.down = true ∨ ∃ e, tx.apply c.heartbeat c.now s.run = .error e) := by
  simp only [exec] at he
  split_ifs at he with hd
  · exact Or.inr ⟨(Prod.mk.inj (Option.some.inj he)).1.symm, Or.inl hd⟩
  · split at he
    · rename_i run hrun
      exact Or.inl ⟨run, _, hrun, BotRun.sameRecording_flushed s.run c.now run,
        (Bool.not_eq_true _).mp hd, (Prod.mk.inj (Option.some.inj he)).1.symm⟩
    · rename_i e hrun
      exact Or.inr ⟨(Prod.mk.inj (Option.some.inj he)).1.symm, Or.inr ⟨e, hrun⟩⟩

theorem settle_unsettled_ne (hu : u ≠ t) : (s.settle t).unsettled u = s.unsettled u := by
  simp [Store.settle, Function.update_of_ne hu]

theorem calm_settle : Calm t (s.settle t) := by
  simp [Calm, Store.settle]

theorem rely_settle (run : BotRun) (hu : u ≠ t) : Rely u s ((s.setRun run).settle t) :=
  ⟨settle_unsettled_ne hu, fun _ h _ => h, id⟩

theorem inv_setRun_none {run : BotRun} (hi : Inv C s) (h : run.recordingUri = none) :
    Inv C (s.setRun run) := by
  refine ⟨fun uri hu => ?_, hi.object, fun uri hu => ?_⟩
  · cases h.symm.trans hu
  · cases h.symm.trans hu

theorem inv_setRun_same {run : BotRun} (hi : Inv C s) (h : BotRun.SameRecording s.run run) :
    Inv C (s.setRun run) := by
  refine ⟨fun uri hu => hi.uri uri (h.1.symm.trans hu), hi.object, fun uri hu => ?_⟩
  obtain ⟨put, hput, hs⟩ := hi.served uri (h.1.symm.trans hu)
  exact ⟨put, hput, hs.imp_right h.2.trans⟩

/-- The end of an operation whose transaction stored nothing. -/
theorem inv_settle (hi : Inv C s) (h : ∀ put ∈ s.lastPut, put.1 = t → s.unsettled t = true →
    s.run.recordingUri = none ∨ s.run.recordingSha256 = some (C.sha256 put.2)) :
    Inv C (s.settle t) := by
  refine ⟨hi.uri, hi.object, fun uri huri => ?_⟩
  obtain ⟨put, hput, hs⟩ := hi.served uri huri
  refine ⟨put, hput, ?_⟩
  rcases hs with hs | hs
  · by_cases ht : put.1 = t
    · rcases h put hput ht (ht ▸ hs) with hn | hsha
      · cases hn.symm.trans huri
      · exact Or.inr hsha
    · exact Or.inl ((settle_unsettled_ne ht).trans hs)
  · exact Or.inr hs

theorem Calm.inv_settle (h : Calm t s) (hi : Inv C s) : Inv C (s.settle t) :=
  Recording.inv_settle hi fun _ _ _ hu => by cases hu.symm.trans h

theorem wp_plain (htx : tx.Plain) (h : Calm t s) :
    (settling C).wp t k (ask (.transaction tx)) (fun _ => Calm t) s := by
  refine wp_ask.mpr fun s₁ hr hi _ c s₂ r he => ?_
  have hcalm := h.rely hr
  rcases exec_transaction he with ⟨run, run', hrun, hsame, -, rfl⟩ | ⟨rfl, -⟩
  · have hset : Inv C (s₁.setRun run') := by
      rcases apply_plain htx hrun with hnone | hkept
      · exact inv_setRun_none hi (hsame.1.trans hnone)
      · exact inv_setRun_same hi ⟨hsame.1.trans hkept.1, hsame.2.trans hkept.2⟩
    have hcalm' : Calm t (s₁.setRun run') := hcalm
    exact ⟨⟨hcalm'.inv_settle hset, fun u hu => rely_settle _ hu, trivial⟩, calm_settle⟩
  · exact ⟨⟨hcalm.inv_settle hi, fun u hu => rely_settle s₁.run hu, trivial⟩, calm_settle⟩

theorem accepts_of_down (h : s.down = true) : s.accepts tx = false := by
  rw [Store.accepts, h]
  rfl

theorem accepts_of_stores {b : Bool} (h : tx.stores s.run = b) (hd : s.down = false) :
    s.accepts tx = b := by
  rw [Store.accepts, hd, h]
  rfl

/-- A transaction that comes after a put and is not accepted. -/
theorem inv_rejected (hi : Inv C s) (hset : Settles C t s (s.accepts tx))
    (hrej : s.accepts tx = false) : Inv C (s.settle t) := by
  refine inv_settle hi fun put hput ht hu => ?_
  have hs := hset put hput hu
  rw [if_pos ht, hrej] at hs
  exact hs.resolve_left nofun

theorem wp_puts (htx : tx.Puts C data) (h : HasPut t data s) :
    (settling C).wp t k (ask (.transaction tx)) (fun _ => Calm t) s := by
  refine wp_ask.mpr fun s₁ hr hi hc c s₂ r he => ?_
  have hput := h.rely hr
  have hset : Settles C t s₁ (s₁.accepts tx) := hc tx rfl
  rcases exec_transaction he with ⟨run, run', hrun, hsame, hup, rfl⟩ | ⟨rfl, hrej⟩
  · refine ⟨⟨?_, fun u hu => rely_settle _ hu, trivial⟩, calm_settle⟩
    rcases apply_puts htx hrun with ⟨hst, huri, hsha⟩ | ⟨hst, hkept⟩
    · obtain ⟨put, hlast⟩ := Option.isSome_iff_exists.mp hput.some
      have hacc := accepts_of_stores hst hup
      refine ⟨fun uri hu => Option.some.inj (hu.symm.trans (hsame.1.trans huri)), hi.object,
        fun uri _ => ⟨put, hlast, ?_⟩⟩
      by_cases ht : put.1 = t
      · refine Or.inr (hsame.2.trans ?_)
        rw [hput.own put hlast ht, hsha]
      · have hs := hset put hlast hput.unsettled
        rw [if_neg ht, hacc] at hs
        exact Or.inl ((settle_unsettled_ne ht).trans (hs.resolve_left nofun))
    · have hrun' : BotRun.SameRecording s₁.run run' :=
        ⟨hsame.1.trans hkept.1, hsame.2.trans hkept.2⟩
      have hkeep := inv_rejected hi hset (accepts_of_stores hst hup)
      exact inv_setRun_same hkeep hrun'
  · have hno : s₁.accepts tx = false := by
      rcases hrej with hd | ⟨e, herr⟩
      · exact accepts_of_down hd
      · rw [Store.accepts, apply_error htx herr, Bool.and_false]
    exact ⟨⟨inv_rejected hi hset hno, fun u hu => rely_settle s₁.run hu, trivial⟩,
      calm_settle⟩

end Fakery.Recording

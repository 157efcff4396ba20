import Fakery.Locking.Discipline

/-! Deadlocks. Every operation but the orphan sweep locks its bot row before the subscription
rows; the sweep goes on to the row of the next run with the subscription rows in hand. -/
namespace Fakery.Locking
open Fakery.Bots Fakery.Concurrent

/-- The bot row that a call asks to lock FOR UPDATE. -/
def Call.selects : Call → Option ℕ
  | .request (.forUpdate b) => some b
  | _ => none

/-- When a sweep that already holds a lock selects the row of a run, no other transaction holds a
lock on that row. -/
def rowsFree (n : ℕ) : (transactions n).Condition where
  call t k i s := sweeps k = true → ∀ b ∈ i.selects, s.holds t = true →
    s.free rowLocks t (.forUpdate b) = true

instance (n t : ℕ) (k : Op) (s : Locks) : Decidable ((rowsFree n).start t k s) := isTrue trivial

instance (n t : ℕ) (k : Op) (i : Call) (s : Locks) : Decidable ((rowsFree n).call t k i s) :=
  inferInstanceAs (Decidable (sweeps k = true → ∀ b ∈ i.selects, s.holds t = true →
    s.free rowLocks t (.forUpdate b) = true))

instance (n t : ℕ) (s : Locks) : Decidable ((rowsFree n).kill t s) := isTrue trivial

instance (n : ℕ) (e : Empty) (s : Locks) : Decidable ((rowsFree n).env e s) := isTrue trivial

def ordered (n : ℕ) : Protocol (transactions n) where
  cond := rowsFree n
  inv s := s.Ordered rowLocks ∧ s.Exclusive rowLocks
  rely t s s' := s.Agrees t s'
  idle t s := s.Has t []
  rely_refl := LockTable.Agrees.refl
  rely_trans _ _ _ _ := LockTable.Agrees.trans

/-- Between two statements a transaction holds all subscription rows or none. -/
def AtRest (n : ℕ) (L : List Lock) : Prop :=
  (∀ j, .subscription j ∉ L) ∨ ∀ j < n, .subscription j ∈ L

variable {n t : ℕ} {k : Op} {s s₁ : Locks} {r : Lock} {rs L : List Lock} {α : Type}

theorem allowed_grant (hi : (ordered n).inv s) (hf : s.free rowLocks t r = true) :
    (ordered n).Allowed t s (s.grant t r) :=
  ⟨⟨hi.1.grant t r, hi.2.grant hf⟩, fun _ hu => LockTable.agrees_grant hu, trivial⟩

theorem allowed_enqueue (hi : (ordered n).inv s)
    (hr : ∀ h, (t, h) ∈ s.locks → rowLocks.rank h < rowLocks.rank r) :
    (ordered n).Allowed t s (s.enqueue t r) :=
  ⟨⟨hi.1.enqueue hr, hi.2.enqueue t r⟩, fun _ hu => LockTable.agrees_enqueue hu, trivial⟩

theorem allowed_release (hi : (ordered n).inv s) : (ordered n).Allowed t s (s.release t) :=
  ⟨⟨hi.1.release t, hi.2.release t⟩, fun _ hu => LockTable.agrees_release hu, trivial⟩

theorem allowed_same (hi : (ordered n).inv s) : (ordered n).Allowed t s s :=
  ⟨hi, fun u _ => .refl u s, trivial⟩

/-- A transaction that has to wait for a lock holds only locks below it. -/
theorem wp_acquire {Q : Unit → Locks → Prop} (hs : s.Has t L)
    (hord : ∀ s₁, s₁.Has t L → (ordered n).inv s₁ → (rowsFree n).call t k (.request r) s₁ →
      s₁.free rowLocks t r = false → ∀ h ∈ L, rowLocks.rank h < rowLocks.rank r)
    (hrest : ∀ s', s'.Has t (r :: L) → (ordered n).wp t k (acquire rs) Q s') :
    (ordered n).wp t k (acquire (r :: rs)) Q s := by
  intro s₁ hr hi hc database s₂ granted he
  have hs₁ := hs.agrees hr
  have he : (if s₁.free rowLocks t r then some (s₁.grant t r, true)
      else some (s₁.enqueue t r, false)) = some (s₂, granted) := he
  cases hf : s₁.free rowLocks t r with
  | true =>
    rw [if_pos hf] at he
    obtain ⟨rfl, rfl⟩ := Prod.mk.inj (Option.some.inj he)
    exact ⟨allowed_grant hi hf, hrest _ (LockTable.has_grant hs₁.held)⟩
  | false =>
    rw [if_neg (by simp [hf])] at he
    obtain ⟨rfl, rfl⟩ := Prod.mk.inj (Option.some.inj he)
    refine ⟨allowed_enqueue hi fun h hm => ?_, ?_⟩
    · exact hord s₁ hs₁ hi hc hf h ((hs₁.held h).mp hm)
    intro s₃ hr₃ hi₃ _ database s₄ a he
    have he : (if s₃.free rowLocks t r then some (s₃.grant t r, ()) else none) = some (s₄, a) := he
    split_ifs at he with hf₃
    obtain ⟨rfl, -⟩ := Prod.mk.inj (Option.some.inj he)
    have hheld : ∀ q, (t, q) ∈ s₃.locks ↔ q ∈ L := fun q => (hr₃.held q).trans (hs₁.held q)
    exact ⟨allowed_grant hi₃ hf₃, hrest _ (LockTable.has_grant hheld)⟩

/-- The subscription rows are taken in order, or are all there already. -/
theorem wp_subscriptions {js : List ℕ} (hs : s.Has t L)
    (hjs : (∀ j ∈ js, .subscription j ∈ L) ∨
      js.Pairwise (· < ·) ∧ ∀ h ∈ L, ∀ j ∈ js, rowLocks.rank h < j + 1) :
    (ordered n).wp t k (acquire (js.map .subscription))
      (fun _ s' => ∃ L', s'.Has t L' ∧ L ⊆ L' ∧ ∀ j ∈ js, .subscription j ∈ L') s := by
  induction js generalizing s L with
  | nil => exact ⟨L, hs, fun _ h => h, by simp⟩
  | cons j js ih =>
    refine wp_acquire hs ?_ fun s' hs' => ?_
    · intro s₁ hs₁ hi _ hf h hh
      rcases hjs with hjs | ⟨-, hlt⟩
      · have hm := (hs₁.held (.subscription j)).mpr (hjs j List.mem_cons_self)
        rw [hi.2.free hm] at hf
        cases hf
      · exact hlt h hh j List.mem_cons_self
    · have hnext : (∀ i ∈ js, .subscription i ∈ .subscription j :: L) ∨ js.Pairwise (· < ·) ∧
          ∀ h ∈ Lock.subscription j :: L, ∀ i ∈ js, rowLocks.rank h < i + 1 := by
        rcases hjs with hjs | ⟨hsorted, hlt⟩
        · exact Or.inl fun i hi => List.mem_cons_of_mem _ (hjs i (List.mem_cons_of_mem _ hi))
        · obtain ⟨hhead, htail⟩ := List.pairwise_cons.mp hsorted
          refine Or.inr ⟨htail, fun h hh i hi => ?_⟩
          rcases List.mem_cons.mp hh with rfl | hh
          · exact Nat.succ_lt_succ (hhead i hi)
          · exact hlt h hh i (List.mem_cons_of_mem _ hi)
      refine Protocol.wp_mono (ih hs' hnext) fun _ s'' hpost => ?_
      obtain ⟨L', hL', hsub, hall⟩ := hpost
      refine ⟨L', hL', fun h hh => hsub (List.mem_cons_of_mem _ hh), fun i hi => ?_⟩
      rcases List.mem_cons.mp hi with rfl | hi
      · exact hsub List.mem_cons_self
      · exact hall i hi

theorem rank_eq_zero (hL : ∀ j, .subscription j ∉ L) {h : Lock} (hh : h ∈ L) :
    rowLocks.rank h = 0 := by
  cases h with
  | subscription j => exact absurd hh (hL j)
  | forUpdate b => rfl
  | keyShare b => rfl

/-- One statement: `hrow` says that a row lock is free or the first lock of the transaction. -/
theorem wp_locked_call {i : Stmt} {f : Answer i → Prog Stmt Answer α} {Q : α → Locks → Prop}
    (hs : s.Has t L) (hL : AtRest n L)
    (hrow : ∀ r, rowLock i = some r → ∀ s₁, s₁.Has t L → (rowsFree n).call t k (.request r) s₁ →
      s₁.free rowLocks t r = false → L = [])
    (hrest : ∀ a s' L', s'.Has t L' → AtRest n L' → (Lockless i → L = [] → L' = []) →
      (ordered n).wp t k (locked n (f a)) Q s') :
    (ordered n).wp t k (locked n (.call i f)) Q s := by
  have hstmt : ∀ L₁ s₁, s₁.Has t L₁ → AtRest n L₁ → (Lockless i → L = [] → L₁ = []) →
      (ordered n).wp t k (.call (.stmt i) fun a => locked n (f a)) Q s₁ := by
    intro L₁ s₁ hs₁ hL₁ hempty s₂ hr hi _ database s₃ a he
    have he : some (if ends i then s₂.release t else s₂, database i) = some (s₃, a) := he
    obtain ⟨rfl, -⟩ := Prod.mk.inj (Option.some.inj he)
    cases hends : ends i with
    | true =>
      exact ⟨allowed_release hi,
        hrest a _ [] LockTable.has_release (Or.inl (by simp)) fun _ _ => rfl⟩
    | false => exact ⟨allowed_same hi, hrest a _ L₁ (hs₁.agrees hr) hL₁ hempty⟩
  refine Protocol.wp_bind.mpr ?_
  unfold requests
  cases hemits : emits i with
  | true =>
    have hjs : (∀ j ∈ List.range n, .subscription j ∈ L) ∨ (List.range n).Pairwise (· < ·) ∧
        ∀ h ∈ L, ∀ j ∈ List.range n, rowLocks.rank h < j + 1 := by
      rcases hL with hnone | hall
      · refine Or.inr ⟨List.pairwise_lt_range, fun h hh j _ => ?_⟩
        rw [rank_eq_zero hnone hh]
        exact Nat.succ_pos j
      · exact Or.inl fun j hj => hall j (List.mem_range.mp hj)
    refine Protocol.wp_mono (wp_subscriptions hs hjs) fun _ s' hpost => ?_
    obtain ⟨L', hL', -, hall⟩ := hpost
    refine hstmt L' s' hL' (Or.inr fun j hj => hall j (List.mem_range.mpr hj)) fun hless => ?_
    cases hemits.symm.trans hless.2
  | false =>
    cases hr : rowLock i with
    | none => exact hstmt L s hs hL fun _ h => h
    | some r =>
      refine wp_acquire hs (fun s₁ hs₁ _ hc hf h hh => ?_) fun s' hs' => ?_
      · rw [hrow r hr s₁ hs₁ hc hf] at hh
        cases hh
      · refine hstmt (r :: L) s' hs' ?_ fun hless => ?_
        · have hne : ∀ j, Lock.subscription j ≠ r := by
            rintro j rfl
            cases i <;> cases hr
          refine hL.imp (fun hnone j hj => ?_) fun hall j hj => List.mem_cons_of_mem _ (hall j hj)
          exact (List.mem_cons.mp hj).elim (hne j) (hnone j)
        · cases hr.symm.trans hless.1

theorem wp_noRow {p : Prog Stmt Answer α} (hp : p.Uses NoRow) (hs : s.Has t L)
    (hL : AtRest n L) : (ordered n).wp t k (locked n p) (fun _ _ => True) s := by
  induction p generalizing s L with
  | done a => trivial
  | call i f ih =>
    refine wp_locked_call hs hL (fun r hr => ?_) fun a s' L' hs' hL' _ => ih a (hp.2 a) hs' hL'
    cases hr.symm.trans hp.1

theorem atRest_nil : AtRest n [] := Or.inl (by simp)

/-- An operation that locks one bot row, before any subscription row. -/
theorem wp_rowFirst {p : Prog Stmt Answer α} (hp : RowFirst p) (hs : s.Has t []) :
    (ordered n).wp t k (locked n p) (fun _ _ => True) s := by
  induction p generalizing s with
  | done a => trivial
  | call i f ih =>
    refine wp_locked_call hs atRest_nil (fun _ _ _ _ _ _ => rfl) fun a s' L' hs' hL' hempty => ?_
    unfold RowFirst at hp
    by_cases hi : ((rowLock i).isSome || emits i) = true
    · rw [if_pos hi] at hp
      exact wp_noRow (hp a) hs' hL'
    · rw [if_neg hi] at hp
      simp only [Bool.or_eq_true, not_or, Bool.not_eq_true] at hi
      cases hempty ⟨by simpa using hi.1, hi.2⟩ rfl
      exact ih a (hp a) hs'

/-- A sweep never waits for a bot row while it holds a lock. -/
theorem wp_sweep {p : Prog Stmt Answer α} (hk : sweeps k = true) (hp : p.Uses NoShare)
    (hs : s.Has t L) (hL : AtRest n L) :
    (ordered n).wp t k (locked n p) (fun _ _ => True) s := by
  induction p generalizing s L with
  | done a => trivial
  | call i f ih =>
    refine wp_locked_call hs hL (fun r hr s₁ hs₁ hc hf => ?_)
      fun a s' L' hs' hL' _ => ih a (hp.2 a) hs' hL'
    have hselects : ∃ b, r = .forUpdate b := by
      cases r with
      | forUpdate b => exact ⟨b, rfl⟩
      | keyShare b => exact absurd hr (hp.1 b)
      | subscription j => cases i <;> cases hr
    obtain ⟨b, rfl⟩ := hselects
    cases L with
    | nil => rfl
    | cons h L =>
      have hholds := LockTable.holds_iff.mpr ⟨h, (hs₁.held h).mpr List.mem_cons_self⟩
      rw [hc hk b rfl hholds] at hf
      cases hf

theorem ordered_sound (n : ℕ) : (ordered n).Sound where
  idle hr hs := hs.agrees hr
  final _ _ := trivial
  start {t k s s'} hi hs _ hb := by
    cases Option.some.inj hb
    refine ⟨allowed_same hi, ?_⟩
    rcases op_prog k with ⟨hk, hp⟩ | ⟨-, hp⟩
    · exact wp_sweep hk hp hs atRest_nil
    · exact wp_rowFirst hp hs
  kill hi _ := ⟨allowed_release hi, trivial⟩
  env {e} := e.elim

/-- In every state of a run in which a sweep that holds locks finds the next row free, no
transactions wait for each other in a circle. -/
theorem waitsFor_acyclic {n : ℕ} {es : List (Event Op ((i : Stmt) → Answer i) Empty)}
    {s : (transactions n).State} (hc : (rowsFree n).Meets ((transactions n).init {}) es)
    (hr : (transactions n).run ((transactions n).init {}) es = some s) (t : ℕ) :
    ¬Relation.TransGen (s.shared.WaitsFor rowLocks) t t := by
  have hinit : (ordered n).Holds ((transactions n).init {}) :=
    Protocol.holds_init ⟨nofun, nofun⟩ fun t => ⟨rfl, by simp⟩
  exact ((ordered_sound n).run hinit hc hr).inv.1.acyclic t

section runs

/-- A run that nothing has touched since it began to record. -/
def staleRun (b : ℕ) : BotRun :=
  { id := b, meetingUrl := "https://meet.google.com/abc-defg-hij"
    meetingKey := "meet.google.com/abc-defg-hij", idempotencyKey := none, displayName := none
    status := .recording, createdAt := 0, updatedAt := 0 }

/-- Runs 1 and 2 are stale and nobody beats for them; there is one subscription. -/
def database : (i : Stmt) → Answer i
  | .utcnow => 1000
  | .uuid4 => 7
  | .get b => some (staleRun b)
  | .selectForUpdate b => some (staleRun b)
  | .getByIdempotency _ => none
  | .findActiveMeeting _ => none
  | .selectStale _ => [staleRun 1, staleRun 2]
  | .heartbeat _ => false
  | .assign _ _ => ()
  | .flush _ => ()
  | .insertRun _ => true
  | .lockSubscriptions => [⟨5, "https://example.com/hook"⟩]
  | .lastDelivery _ _ => none
  | .addDelivery _ => ()
  | .findSegment _ _ => none
  | .insertSegment _ => ()
  | .insertNote _ => true
  | .commit => ()
  | .rollback => ()
  | .openBrowser _ => ()

def steps (t m : ℕ) : List (Event Op ((i : Stmt) → Answer i) Empty) :=
  List.replicate m (.step t database)

/-- A sweep fails run 1 and has the subscription locked, a segment of run `b` is ingested and
waits for the subscription, and the sweep selects run 2. -/
def sweepAndIngest (b : ℕ) : List (Event Op ((i : Stmt) → Answer i) Empty) :=
  .start 0 (.sweepOrphans 300) :: steps 0 20 ++
    .start 1 (.ingestSegment b ⟨"hello", 0, 900, none⟩) :: steps 1 7 ++ steps 0 1

theorem waitsFor_acyclic_third : ∃ s : (transactions 1).State,
    (transactions 1).run ((transactions 1).init {}) (sweepAndIngest 3) = some s ∧
      s.shared.waiting 1 = some (.subscription 0) ∧
      ∀ t, ¬Relation.TransGen (s.shared.WaitsFor rowLocks) t t := by
  have hsome : (((transactions 1).run ((transactions 1).init {}) (sweepAndIngest 3)).any fun s =>
      s.shared.waiting 1 = some (.subscription 0)) = true := by decide +kernel
  obtain ⟨s, hs, hw⟩ := (Option.any_eq_true _ _).mp hsome
  exact ⟨s, hs, of_decide_eq_true hw, waitsFor_acyclic (by decide +kernel) hs⟩

/-- The sweep waits for the key share of the ingested segment, which waits for the subscription
that the sweep has locked. -/
theorem not_waitsFor_acyclic : ¬∀ (n : ℕ) (es : List (Event Op ((i : Stmt) → Answer i) Empty))
    (s : (transactions n).State), (transactions n).run ((transactions n).init {}) es = some s →
      ∀ t, ¬Relation.TransGen (s.shared.WaitsFor rowLocks) t t := by
  intro h
  have hsome : (((transactions 1).run ((transactions 1).init {}) (sweepAndIngest 2)).any fun s =>
      s.shared.waiting 0 = some (.forUpdate 2) ∧ (1, .keyShare 2) ∈ s.shared.locks ∧
      s.shared.waiting 1 = some (.subscription 0) ∧ (0, .subscription 0) ∈ s.shared.locks) =
        true := by decide +kernel
  obtain ⟨s, hs, hw⟩ := (Option.any_eq_true _ _).mp hsome
  obtain ⟨hsweep, hshare, hingest, hsubscription⟩ := of_decide_eq_true hw
  have hforth : s.shared.WaitsFor rowLocks 0 1 := ⟨by decide, _, hsweep, _, hshare, rfl⟩
  have hback : s.shared.WaitsFor rowLocks 1 0 := ⟨by decide, _, hingest, _, hsubscription, rfl⟩
  exact h 1 _ s hs 0 (.tail (.single hforth) hback)

end runs

end Fakery.Locking

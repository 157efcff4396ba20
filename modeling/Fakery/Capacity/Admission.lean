import Fakery.Capacity.Balance

/-! After every commit the counter equals the open reservations, and both stay within the limit. -/
namespace Fakery.Capacity
open Fakery.Bots Fakery.Concurrent Fakery.Postgres

variable {t u τ L i a b tenant limit bot owner : ℕ} {k : Op} {x : Stmt} {c : Outcome} {s s' : Db}
  {α : Type}

/-- The insertion and the increment that follows it. -/
theorem wp_insert {counter : CapacityCounter} {r : CapacityReservation} (hr : r.tenant = τ)
    (hro : Db.isOpen r = true) (hlt : counter.activeCount < L) (ha : Accounts τ L t 0 0 s)
    (hl : Locked τ t counter s) :
    (ledger τ L).wp t k (do
      if ← perform (.insertReservation r) then do
        perform (.assignCounter τ fun c => { c with activeCount := c.activeCount + 1 })
        perform (.flushCounter τ)
        pure true
      else throw () : Txn Bool).run
      (fun y s' => ∀ ok, y = .ok ok → Accounts τ L t 0 0 s') s := by
  refine wp_perform_bind.mpr fun s₁ hr₁ hi₁ hc₁ c₁ s₂ ok he₁ => ?_
  have hsum := (ha.rely hr₁).sum
  obtain ⟨hh₁, o, ho₁, rfl, hload⟩ := hl.rely hr₁
  refine ⟨allowed_insertReservation hi₁ he₁, ?_⟩
  rcases insertReservation_eq he₁ with ⟨rfl, rfl⟩ | ⟨rfl, -, -, -, -, hcs, hos⟩
  · exact (Protocol.wp_throw _).mpr nofun
  have hopen : seenOpen τ t s₂ = seenOpen τ t s₁ + 1 := by
    rw [seenOpen_insert hi₁ he₁ rfl]
    simp [isOpenOf, hr, hro]
  have hact : seenActive τ t s₁ = o.now.activeCount := by
    subst hr
    cases hv : (s₁.counters r.tenant).visible t with
    | none => exact absurd hv (visible_ne_none hi₁)
    | some w =>
      unfold seenActive
      rw [hv]
      exact (hc₁.1 r rfl o ho₁ w hv).symm
  refine wp_adjust (hos ▸ ho₁) (hcs ▸ hh₁) fun s₃ hh₃ ho₃ hact₃ hop₃ _ => ?_
  have hne : o.now.activeCount + 1 ≠ o.loaded.activeCount := by omega
  have hact₃ : seenActive τ t s₃ = o.now.activeCount + 1 := hact₃.trans (if_neg hne)
  exact (Protocol.wp_pure _).mpr fun _ _ => ⟨by omega, fun _ => by omega⟩

theorem wp_tryReserve (bot owner : ℕ) (h : Settled τ L t s) :
    (ledger τ L).wp t k (tryReserveCapacity τ L bot owner).run
      (fun y s' => ∀ ok, y = .ok ok → Accounts τ L t 0 0 s') s := by
  refine Protocol.wp_task_bind.mpr (Protocol.wp_mono (wp_lockedCounter h) fun y s₁ h₁ => ?_)
  cases y with
  | error e => exact nofun
  | ok counter =>
    obtain ⟨hlim, ha₁, hl₁⟩ := h₁ counter rfl
    refine wp_unchanged (fun _ _ _ _ he => (Prod.mk.inj (Option.some.inj he)).1.symm)
      fun s₂ hr₂ _ _ current _ => ?_
    have ha₂ := ha₁.rely hr₂
    have hl₂ := hl₁.rely hr₂
    split
    · exact (Protocol.wp_pure _).mpr fun _ _ => ha₂
    · split
      · exact (Protocol.wp_pure _).mpr fun _ _ => ha₂
      · rename_i hlt
        refine wp_unchanged (fun _ _ _ _ he => (Prod.mk.inj (Option.some.inj he)).1.symm)
          fun s₃ hr₃ _ _ id _ => ?_
        refine wp_unchanged (fun _ _ _ _ he => (Prod.mk.inj (Option.some.inj he)).1.symm)
          fun s₄ hr₄ _ _ acquiredAt _ => ?_
        exact wp_insert rfl rfl (by omega) ((ha₂.rely hr₃).rely hr₄) ((hl₂.rely hr₃).rely hr₄)

/-- A reservation for another tenant. -/
theorem tryReserve_other (h : tenant ≠ τ) :
    (tryReserveCapacity tenant limit bot owner).run.Uses (Stmt.Other τ) := by
  refine Task.uses_bind ?_ fun counter => ?_
  · refine Task.uses_bind (Task.uses_perform h) fun found => ?_
    cases found with
    | none =>
      refine Task.uses_bind (Task.uses_perform h) fun ok => ?_
      cases ok <;> trivial
    | some _ =>
      refine Task.uses_bind (Task.uses_perform h) fun locked => ?_
      cases locked with
      | none => trivial
      | some c =>
        exact Task.uses_bind (Task.uses_perform h) fun _ =>
          Task.uses_bind (Task.uses_perform h) fun _ => trivial
  · refine Task.uses_bind (Task.uses_perform trivial) fun current => ?_
    split
    · trivial
    · split
      · trivial
      · refine Task.uses_bind (Task.uses_perform trivial) fun _ =>
          Task.uses_bind (Task.uses_perform trivial) fun _ =>
          Task.uses_bind (Task.uses_perform h) fun ok => ?_
        split
        · exact Task.uses_bind (Task.uses_perform h) fun _ =>
            Task.uses_bind (Task.uses_perform h) fun _ => trivial
        · trivial

/-- The end of a transaction moves what it saw into the committed rows. -/
theorem openCount_commit (t : ℕ) (s : Db) : openCount τ (s.commit t) = seenOpen τ t s := by
  unfold openCount seenOpen
  refine List.countP_congr fun i _ => ?_
  dsimp only [Db.commit]
  unfold Row.commit Row.visible
  split_ifs <;> rfl

theorem sums_commit (hu : u ≠ t) (hi : Inv τ L s) (h : seenActive τ t s = seenOpen τ t s) :
    seenOpen τ u (s.commit t) + seenActive τ u s =
      seenOpen τ u s + seenActive τ u (s.commit t) := by
  obtain ⟨c, hc, hn, -⟩ := hi.counter
  have hopen : seenOpen τ u (s.commit t) + openCount τ s = seenOpen τ u s + seenOpen τ t s :=
    countP_add s.ids fun i =>
      (s.reservations i).commit_visible_add (fun x => (isOpenOf τ x).toNat) hu
  have hact : seenActive τ u (s.commit t) + c.activeCount = seenActive τ u s + seenActive τ t s := by
    have := (s.counters τ).commit_visible_add activeOf hu
    rw [hc] at this
    exact this
  omega

theorem rowInv_new {x : Option CapacityReservation} (h : ∀ r, x = some r → r.id = i) :
    RowInv i (.new x) := ⟨fun r hr => ⟨r, hr, rfl⟩, h, h⟩

theorem obj_end {tc : ℕ → ℕ → Option Obj} (hu : u ≠ t) :
    Function.update tc t (fun _ => none) u = tc u := Function.update_of_ne hu _ _

theorem Rely.commit (hu : u ≠ t) (hi : Inv τ L s) (h : seenActive τ t s = seenOpen τ t s) :
    Rely τ u s (s.commit t) := by
  have hne : ∀ {ρ : Type} (r : Row ρ), r.holder = some u → r.commit t = r := fun r hr =>
    Row.commit_of_not_holder fun ht => hu (Option.some.inj (hr.symm.trans ht))
  refine ⟨obj_end hu, fun hc => hne _ hc, Row.commit_holder_iff _ hu, fun i hr => hne _ hr,
    fun i => Row.commit_holder_iff _ hu, fun i x hx => ?_, sums_commit hu hi h⟩
  by_cases ht : (s.reservations i).holder = some t
  · obtain ⟨y, hy, hyx⟩ := (hi.rows i).kept x hx
    refine ⟨y, ?_, hyx⟩
    exact (congrArg Row.committed (Row.commit_of_holder ht)).trans hy
  · exact ⟨x, (congrArg Row.committed (Row.commit_of_not_holder ht)).trans hx, rfl⟩

theorem allowed_commit (hi : Inv τ L s) (h : Accounts τ L t 0 0 s) :
    (ledger τ L).Allowed t s (s.commit t) := by
  have hsum : seenActive τ t s = seenOpen τ t s := h.sum
  refine ⟨⟨hi.nodup, fun i hn => ?_, fun i => ?_, ?_, ?_⟩, fun u hu => .commit hu hi hsum, trivial⟩
  · obtain ⟨hc, hw⟩ := hi.listed i hn
    dsimp only [Db.commit]
    unfold Row.commit
    split_ifs
    · exact ⟨hw, hw⟩
    · exact ⟨hc, hw⟩
  · dsimp only [Db.commit]
    unfold Row.commit
    split_ifs
    · exact rowInv_new (hi.rows i).written
    · exact hi.rows i
  · obtain ⟨w, hw⟩ : ∃ w, (s.counters τ).visible t = some w :=
      Option.ne_none_iff_exists'.mp (visible_ne_none hi)
    have hact : seenActive τ t s = w.activeCount := by
      unfold seenActive
      rw [hw]
      rfl
    refine ⟨w, ?_, ?_, hact ▸ h.le hi⟩
    · rw [← hw]
      dsimp only [Db.commit]
      unfold Row.commit Row.visible
      split_ifs <;> rfl
    · rw [openCount_commit, ← hact, hsum]
  · dsimp only [Db.commit]
    unfold Row.commit
    split_ifs <;> exact hi.written

theorem allowed_rollback (hi : Inv τ L s) : (ledger τ L).Allowed t s (s.rollback t) := by
  have hcom : ∀ i, ((s.rollback t).reservations i).committed = (s.reservations i).committed :=
    fun i => Row.rollback_committed _ _
  refine ⟨⟨hi.nodup, fun i hn => ?_, fun i => ?_, ?_, ?_⟩, fun u hu => ?_, trivial⟩
  · obtain ⟨hc, hw⟩ := hi.listed i hn
    refine ⟨(hcom i).trans hc, ?_⟩
    dsimp only [Db.rollback]
    unfold Row.rollback
    split_ifs
    · exact hc
    · exact hw
  · dsimp only [Db.rollback]
    unfold Row.rollback
    split_ifs
    · exact rowInv_new (hi.rows i).committed
    · exact hi.rows i
  · obtain ⟨c, hc, hn, hl⟩ := hi.counter
    refine ⟨c, (Row.rollback_committed _ _).trans hc, hn.trans ?_, hl⟩
    unfold openCount
    simp only [hcom]
    rfl
  · obtain ⟨c, hc, -⟩ := hi.counter
    dsimp only [Db.rollback]
    unfold Row.rollback
    split_ifs
    · exact fun hn => by cases hc.symm.trans hn
    · exact hi.written
  · have hseen : ∀ i, ((s.rollback t).reservations i).visible u = (s.reservations i).visible u :=
      fun i => Row.rollback_visible _ hu
    have hact : seenActive τ u (s.rollback t) = seenActive τ u s :=
      congrArg activeOf (Row.rollback_visible _ hu)
    have hne : ∀ {ρ : Type} (r : Row ρ), r.holder = some u → r.rollback t = r := fun r hr =>
      Row.rollback_of_not_holder fun ht => hu (Option.some.inj (hr.symm.trans ht))
    refine ⟨obj_end hu, fun hc => hne _ hc, Row.rollback_holder_iff _ hu, fun i hr => hne _ hr,
      fun i => Row.rollback_holder_iff _ hu, fun i x hx => ⟨x, (hcom i).trans hx, rfl⟩, ?_⟩
    rw [hact]
    unfold seenOpen
    simp only [hseen]
    rfl

theorem wp_transaction {x : Txn α} (h : (ledger τ L).wp t k x.run
    (fun y s' => ∀ a, y = .ok a → Accounts τ L t 0 0 s') s) :
    (ledger τ L).wp t k (transaction x) (fun _ _ => True) s := by
  refine Protocol.wp_bind.mpr (Protocol.wp_mono h fun y s₁ h₁ => ?_)
  cases y with
  | ok a =>
    refine wp_issue.mpr fun s₂ hr hi _ c s₃ _ he => ?_
    obtain ⟨rfl, -⟩ := Prod.mk.inj (Option.some.inj he)
    exact ⟨allowed_commit hi ((h₁ a rfl).rely hr), trivial⟩
  | error e =>
    refine wp_issue.mpr fun s₂ hr hi _ c s₃ _ he => ?_
    obtain ⟨rfl, -⟩ := Prod.mk.inj (Option.some.inj he)
    exact ⟨allowed_rollback hi, trivial⟩

/-- A transaction sees the committed rows when it starts. -/
theorem settled_begin (hi : Inv τ L s) (hc : (s.counters τ).holder ≠ some t)
    (hr : ∀ i, (s.reservations i).holder ≠ some t) :
    Settled τ L t { s with counterOf := Function.update s.counterOf t fun _ => none } := by
  obtain ⟨c, hcom, hn, -⟩ := hi.counter
  have hopen : seenOpen τ t s = openCount τ s := by
    unfold seenOpen openCount
    simp only [Row.visible_of_not_holder (hr _)]
  have hact : seenActive τ t s = c.activeCount := by
    unfold seenActive
    rw [Row.visible_of_not_holder hc, hcom]
    rfl
  refine ⟨⟨?_, fun hh => absurd hh hc⟩, fun o ho => ?_⟩
  · exact hact.trans (hn.trans hopen.symm)
  · simp at ho

theorem sound (τ L : ℕ) : (ledger τ L).Sound where
  idle hr h := ⟨fun hh => h.1 (hr.counterHolder.mp hh), fun i hh => h.2 i ((hr.holder i).mp hh)⟩
  start {t k s s'} hi hidle hc hb := by
    cases Option.some.inj hb
    have hs := settled_begin hi hidle.1 hidle.2
    refine ⟨allowed_of_counters hi rfl rfl (fun _ => Or.inl rfl) (fun _ hu => obj_end hu)
      hi.written, ?_⟩
    cases k with
    | tryReserve tenant limit bot owner =>
      refine wp_transaction ?_
      by_cases hτ : tenant = τ
      · obtain rfl : limit = L := hc (tenant, limit) rfl hτ
        subst hτ
        exact wp_tryReserve bot owner hs
      · have hsweep : Sweeping τ L t [] _ := ⟨hs, nofun⟩
        exact Protocol.wp_mono (keeps_other (tryReserve_other hτ) _ hsweep)
          fun _ _ h _ _ => h.settled.accounts
    | release bot =>
      exact wp_transaction (Protocol.wp_mono (wp_releaseCapacity bot hs)
        fun _ _ h _ _ => h.accounts)
    | sweep =>
      exact wp_transaction (Protocol.wp_mono (wp_sweepCapacity hs) fun _ _ h _ _ => h.accounts)
  final _ _ := trivial
  kill hi _ := ⟨allowed_rollback hi, trivial⟩
  env {e} := e.elim

variable {initial : ℕ → Option CapacityCounter} {es : List (Event Op Outcome Empty)}
  {σ : capacity.State}

/-- The database of tenants that have nothing reserved yet. -/
def unreserved (initial : ℕ → Option CapacityCounter) : capacity.State :=
  capacity.init { counters := fun tenant => .new (initial tenant) }

theorem inv_init {l : ℕ} (h : initial τ = some ⟨0, l⟩) :
    Inv τ L { counters := fun tenant => .new (initial tenant) } := by
  refine ⟨List.nodup_nil, fun _ _ => ⟨rfl, rfl⟩, fun _ => rowInv_new nofun,
    ⟨⟨0, l⟩, h, rfl, Nat.zero_le L⟩, ?_⟩
  exact fun hn => by cases h.symm.trans hn

/-- The counter of the tenant equals its open reservations, which stay within the limit. -/
def Agrees (τ L : ℕ) (s : Db) : Prop :=
  ∃ counter, (s.counters τ).committed = some counter ∧
    counter.activeCount = openCount τ s ∧ openCount τ s ≤ L

/-- Along every run that meets the condition. -/
theorem counter_agrees {l : ℕ} (h : initial τ = some ⟨0, l⟩)
    (hr : capacity.run (unreserved initial) es = some σ)
    (hc : (upToDate τ L).Meets (unreserved initial) es) : Agrees τ L σ.shared := by
  have hs := (sound τ L).run (Protocol.holds_init (inv_init h) fun _ => ⟨nofun, nofun⟩) hc hr
  obtain ⟨c, hcom, hn, hl⟩ := hs.inv.counter
  exact ⟨c, hcom, hn, hn ▸ hl⟩

/-- The first `n` statements of a transaction, and `n` more. -/
def whole (t : ℕ) (k : Op) (n : ℕ) : List (Event Op Outcome Empty) :=
  .start t k :: List.replicate n (.step t { number := t })

def more (t n : ℕ) : List (Event Op Outcome Empty) := List.replicate n (.step t { number := t })

/-- Two reservations, one after the other, and the release of the first. -/
def reservedTwice : List (Event Op Outcome Empty) :=
  whole 0 (.tryReserve 0 3 10 20) 11 ++ whole 1 (.tryReserve 0 3 11 21) 11 ++ whole 2 (.release 10) 7

theorem counter_agrees_reservedTwice : ∃ σ,
    capacity.run (unreserved fun _ => some ⟨0, 3⟩) reservedTwice = some σ ∧
      Agrees 0 3 σ.shared := by
  have h : (capacity.run (unreserved fun _ => some ⟨0, 3⟩) reservedTwice).isSome := by decide
  obtain ⟨σ, hs⟩ := Option.isSome_iff_exists.mp h
  exact ⟨σ, hs, counter_agrees rfl hs (by decide)⟩

/-- The first transaction reads the counter, the second one comes and goes, and the first one goes
on with the count that it read. -/
def lostUpdate : List (Event Op Outcome Empty) :=
  whole 0 (.tryReserve 0 3 10 20) 1 ++ whole 1 (.tryReserve 0 3 11 21) 11 ++ more 0 10

def counted (es : List (Event Op Outcome Empty)) : Option (ℕ × ℕ) :=
  (capacity.run (unreserved fun _ => some ⟨0, 3⟩) es).map fun σ =>
    (activeOf (σ.shared.counters 0).committed, openCount 0 σ.shared)

theorem counted_lostUpdate : counted lostUpdate = some (1, 2) := by
  decide

/-- A common limit alone is not enough. -/
theorem not_counter_agrees : ¬∀ es σ, (sameLimit 0 3).Meets (unreserved fun _ => some ⟨0, 3⟩) es →
    capacity.run (unreserved fun _ => some ⟨0, 3⟩) es = some σ → Agrees 0 3 σ.shared := by
  intro h
  obtain ⟨σ, hs, he⟩ := Option.map_eq_some_iff.mp counted_lostUpdate
  obtain ⟨c, hc, hn, -⟩ := h lostUpdate σ (by decide) hs
  obtain ⟨ha, ho⟩ := Prod.mk.inj he
  rw [hc] at ha
  have ha : c.activeCount = 1 := ha
  omega

end Fakery.Capacity

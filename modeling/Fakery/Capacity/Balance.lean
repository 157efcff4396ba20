import Fakery.Capacity.Counter

/-! Each capacity transaction leaves the counter and the reservations in agreement. -/
namespace Fakery.Capacity
open Fakery.Bots Fakery.Concurrent Fakery.Postgres

variable {t u τ L i a b tenant : ℕ} {k : Op} {x : Stmt} {c : Outcome} {s s' : Db}
  {rs : List CapacityReservation} {α : Type}

section rules

variable {P : Protocol capacity} {Q : Except Unit α → Db → Prop}

theorem wp_issue {Q : Answer x → Db → Prop} : P.wp t k (issue x) Q s ↔
    ∀ s₁, P.rely t s s₁ → P.inv s₁ → P.cond.call t k x s₁ →
      ∀ c s₂ a, exec t x c s₁ = some (s₂, a) → P.Allowed t s₁ s₂ ∧ Q a s₂ := Iff.rfl

theorem wp_perform_bind {f : Answer x → Txn α} : P.wp t k (perform x >>= f).run Q s ↔
    ∀ s₁, P.rely t s s₁ → P.inv s₁ → P.cond.call t k x s₁ → ∀ c s₂ a,
      exec t x c s₁ = some (s₂, a) → P.Allowed t s₁ s₂ ∧ P.wp t k (f a).run Q s₂ :=
  Protocol.wp_perform_bind x

end rules

/-- A step that leaves alone all that concerns the tenant `τ`. -/
structure Beside (τ t : ℕ) (s s' : Db) : Prop where
  opened : seenOpen τ t s' = seenOpen τ t s
  counter : s'.counters τ = s.counters τ
  obj : s'.counterOf t τ = s.counterOf t τ
  reads : ∀ rs, Reads t rs s → Reads t rs s'

theorem Beside.accounts (h : Beside τ t s s') (ha : Accounts τ L t a b s) :
    Accounts τ L t a b s' := by
  obtain ⟨hs, hb⟩ := ha
  unfold seenActive at hs hb
  constructor <;> unfold seenActive <;> rw [h.counter]
  · rw [h.opened]
    exact hs
  · exact hb

theorem Beside.fresh (h : Beside τ t s s') (hf : Fresh τ t s) : Fresh τ t s' := by
  unfold Fresh
  rw [h.obj, h.counter]
  exact hf

theorem Beside.settled (h : Beside τ t s s') (hs : Settled τ L t s) : Settled τ L t s' :=
  ⟨h.accounts hs.accounts, h.fresh hs.fresh⟩

theorem setCounter_ne {r : Row (Option CapacityCounter)} (h : tenant ≠ τ) :
    (s.setCounter tenant r).counters τ = s.counters τ := Function.update_of_ne (Ne.symm h) _ _

theorem setObj_counterOf {o : Obj} (tenant' : ℕ) : (s.setObj t tenant o).counterOf t tenant' =
    if tenant' = tenant then some o else s.counterOf t tenant' := by
  simp [Db.setObj, Function.update_apply]

theorem setObj_ne {o : Obj} (h : tenant ≠ τ) :
    (s.setObj t tenant o).counterOf t τ = s.counterOf t τ := by
  rw [setObj_counterOf, if_neg (Ne.symm h)]

theorem beside_refl : Beside τ t s s := ⟨rfl, rfl, rfl, fun _ h => h⟩

theorem beside_setObj {o : Obj} (h : tenant ≠ τ) : Beside τ t s (s.setObj t tenant o) :=
  ⟨rfl, rfl, setObj_ne h, fun _ h => h⟩

theorem beside_setCounter {r : Row (Option CapacityCounter)} (h : tenant ≠ τ) :
    Beside τ t s (s.setCounter tenant r) := ⟨rfl, setCounter_ne h, rfl, fun _ h => h⟩

theorem beside_setCounter_setObj {r : Row (Option CapacityCounter)} {o : Obj} (h : tenant ≠ τ) :
    Beside τ t s ((s.setCounter tenant r).setObj t tenant o) :=
  ⟨rfl, setCounter_ne h, setObj_ne h, fun _ h => h⟩

/-- Statements that do not concern the tenant `τ`. -/
def Stmt.Other (τ : ℕ) : Stmt → Prop
  | getCounter tenant | getCounterForUpdate tenant | insertCounter tenant _
  | assignCounter tenant _ | flushCounter tenant => tenant ≠ τ
  | insertReservation r => r.tenant ≠ τ
  | updateReservation _ _ | commit | rollback => False
  | _ => True

theorem mem_of_visible {y : CapacityReservation} (hi : Inv τ L s)
    (hv : (s.reservations i).visible t = some y) : i ∈ s.ids := by
  by_contra hn
  obtain ⟨hc, hw⟩ := hi.listed i hn
  unfold Row.visible at hv
  rw [hc, hw, ite_self] at hv
  cases hv

/-- The count of a transaction that inserts a reservation. -/
theorem seenOpen_insert {r : CapacityReservation} {ok : Bool} (hi : Inv τ L s)
    (h : s.insertReservation t r = some (s', ok)) (hok : ok = true) :
    seenOpen τ t s' = seenOpen τ t s + (isOpenOf τ (some r)).toNat := by
  rcases insertReservation_eq h with ⟨rfl, -⟩ | ⟨-, -, hv, hr, hids, -, -⟩
  · cases hok
  have hview : ∀ j, (s'.reservations j).visible t =
      if j = r.id then some r else (s.reservations j).visible t := fun j => by
    rw [hr, Function.update_apply]
    split_ifs
    · exact Row.visible_of_holder rfl
    · rfl
  unfold seenOpen
  simp only [hview]
  have hchange : ∀ ids : List ℕ, ids.Nodup → r.id ∈ ids →
      ids.countP (fun j => isOpenOf τ (if j = r.id then some r else (s.reservations j).visible t)) =
        ids.countP (fun j => isOpenOf τ ((s.reservations j).visible t)) +
          (isOpenOf τ (some r)).toNat := fun ids hnd hm => by
    have := countP_change
      (f := fun j => isOpenOf τ (if j = r.id then some r else (s.reservations j).visible t))
      (g := fun j => isOpenOf τ ((s.reservations j).visible t)) hnd hm
      (fun j hj => by rw [if_neg hj])
    simpa [hv, isOpenOf] using this
  rw [hids]
  split_ifs with hm
  · exact hchange s.ids hi.nodup hm
  · rw [hchange (s.ids ++ [r.id]) ?_ (List.mem_append_right _ (List.mem_singleton.mpr rfl))]
    · simp [List.countP_append, hv, isOpenOf]
    · refine List.nodup_append.mpr ⟨hi.nodup, by simp, fun a ha b hb hab => hm ?_⟩
      exact List.mem_singleton.mp hb ▸ hab ▸ ha

theorem exec_other {y : Answer x} (hx : x.Other τ) (hi : Inv τ L s)
    (he : exec t x c s = some (s', y)) : (ledger τ L).Allowed t s s' ∧ Beside τ t s s' := by
  cases x with
  | getCounter tenant =>
    simp only [exec] at he
    split at he
    · obtain ⟨rfl, -⟩ := Prod.mk.inj (Option.some.inj he)
      exact ⟨allowed_refl hi, beside_refl⟩
    · rename_i ho
      cases hv : (s.counters tenant).visible t with
      | none =>
        rw [hv] at he
        obtain ⟨rfl, -⟩ := Prod.mk.inj (Option.some.inj he)
        exact ⟨allowed_refl hi, beside_refl⟩
      | some w =>
        simp only [hv, Db.load, ho] at he
        obtain ⟨rfl, -⟩ := Prod.mk.inj (Option.some.inj he)
        exact ⟨allowed_setObj hi, beside_setObj hx⟩
  | getCounterForUpdate tenant =>
    simp only [exec] at he
    split at he
    · obtain ⟨rfl, -⟩ := Prod.mk.inj (Option.some.inj he)
      exact ⟨allowed_refl hi, beside_refl⟩
    · obtain ⟨r, hr, he⟩ := Option.map_eq_some_iff.mp he
      have hk := Row.kept_lock hr
      simp only [Db.load] at he
      split at he
      · obtain ⟨rfl, -⟩ := Prod.mk.inj he
        exact ⟨allowed_setCounter hi hk fun h => absurd h.symm hx, beside_setCounter hx⟩
      · obtain ⟨rfl, -⟩ := Prod.mk.inj he
        exact ⟨allowed_setCounter_setObj hi hk fun h => absurd h.symm hx,
          beside_setCounter_setObj hx⟩
  | insertCounter tenant counter =>
    simp only [exec] at he
    split at he
    · obtain ⟨rfl, -⟩ := Prod.mk.inj (Option.some.inj he)
      exact ⟨allowed_refl hi, beside_refl⟩
    · obtain ⟨r, hr, he⟩ := Option.map_eq_some_iff.mp he
      obtain ⟨rfl, -⟩ := Prod.mk.inj he
      exact ⟨allowed_setCounter_setObj hi (Row.kept_update hr) fun h => absurd h.symm hx,
        beside_setCounter_setObj hx⟩
  | assignCounter tenant f =>
    simp only [exec] at he
    split at he
    · obtain ⟨rfl, -⟩ := Prod.mk.inj (Option.some.inj he)
      exact ⟨allowed_refl hi, beside_refl⟩
    · obtain ⟨rfl, -⟩ := Prod.mk.inj (Option.some.inj he)
      exact ⟨allowed_setObj hi, beside_setObj hx⟩
  | flushCounter tenant =>
    obtain ⟨v, hv, he⟩ := Option.map_eq_some_iff.mp he
    obtain ⟨rfl, -⟩ := Prod.mk.inj he
    unfold Db.flushCounter at hv
    split at hv
    · cases hv
      exact ⟨allowed_refl hi, beside_refl⟩
    · split at hv
      · cases hv
        exact ⟨allowed_refl hi, beside_refl⟩
      · obtain ⟨r, hr, rfl⟩ := Option.map_eq_some_iff.mp hv
        exact ⟨allowed_setCounter_setObj hi (Row.kept_update hr) fun h => absurd h.symm hx,
          beside_setCounter_setObj hx⟩
  | insertReservation r =>
    refine ⟨allowed_insertReservation hi he, ?_⟩
    rcases insertReservation_eq he with ⟨-, rfl⟩ | ⟨hok, -, hv, hr, -, hc, ho⟩
    · exact beside_refl
    · have hx : r.tenant ≠ τ := hx
      refine ⟨?_, by rw [hc], by rw [ho], fun rs hrs r' hr' => ?_⟩
      · rw [seenOpen_insert hi he hok]
        simp [isOpenOf, hx]
      · obtain ⟨z, hz, hzt⟩ := hrs r' hr'
        refine ⟨z, ?_, hzt⟩
        rwa [hr, Function.update_of_ne fun h => by rw [h, hv] at hz; cases hz]
  | updateReservation | commit | rollback => exact hx.elim
  | _ =>
    obtain ⟨rfl, -⟩ := Prod.mk.inj (Option.some.inj he)
    exact ⟨allowed_refl hi, beside_refl⟩

/-- What the sweeper carries from one reservation to the next. -/
structure Sweeping (τ L t : ℕ) (rs : List CapacityReservation) (s : Db) : Prop where
  settled : Settled τ L t s
  reads : Reads t rs s

theorem Sweeping.rely (hr : Rely τ t s s') (h : Sweeping τ L t rs s) : Sweeping τ L t rs s' :=
  ⟨h.settled.rely hr, h.reads.rely hr⟩

theorem keeps_other {p : Prog Stmt Answer α} (hp : p.Uses (Stmt.Other τ)) :
    (ledger τ L).Keeps t k (Sweeping τ L t rs) p :=
  fun _ hs => Protocol.wp_frame hp hs (fun _ _ hr _ => Sweeping.rely hr)
    fun _ _ _ _ _ hx hi _ hs he =>
      have h := exec_other hx hi he
      ⟨h.1, h.2.settled hs.settled, h.2.reads _ hs.reads⟩

section own

/-- The locked read of the counter of `τ`. -/
theorem exec_lock {y : Answer (.getCounterForUpdate τ)} (hi : Inv τ L s)
    (he : exec t (.getCounterForUpdate τ) c s = some (s', y)) :
    (ledger τ L).Allowed t s s' ∧ (s'.counters τ).holder = some t ∧
      s'.reservations = s.reservations ∧ seenOpen τ t s' = seenOpen τ t s ∧
      seenActive τ t s' = seenActive τ t s ∧ ∃ o, y = some o.now ∧ s'.counterOf t τ = some o ∧
        (s.counterOf t τ = some o ∨ s.counterOf t τ = none ∧ o.now = o.loaded ∧
          activeOf (s'.counters τ).written = o.now.activeCount) := by
  simp only [exec] at he
  split at he
  · rename_i hv
    exact absurd hv (visible_ne_none hi)
  · rename_i w hv
    obtain ⟨r, hr, he⟩ := Option.map_eq_some_iff.mp he
    have hk := Row.kept_lock hr
    obtain ⟨-, rfl⟩ := Row.lock_eq hr
    have hw : τ = τ → (⟨(s.counters τ).committed, some t, (s.counters τ).visible t⟩ :
        Row (Option CapacityCounter)).written ≠ none := fun _ => visible_ne_none hi
    have hrow : (s.setCounter τ ⟨(s.counters τ).committed, some t,
        (s.counters τ).visible t⟩).counters τ = ⟨_, some t, (s.counters τ).visible t⟩ :=
      Function.update_self _ _ _
    cases ho : s.counterOf t τ with
    | some o =>
      have ho' : (s.setCounter τ ⟨(s.counters τ).committed, some t,
        (s.counters τ).visible t⟩).counterOf t τ = some o := ho
      simp only [Db.load, ho'] at he
      obtain ⟨rfl, rfl⟩ := Prod.mk.inj he
      refine ⟨allowed_setCounter hi hk hw, by rw [hrow], rfl, rfl, ?_, o, rfl, ho, Or.inl rfl⟩
      unfold seenActive
      rw [hrow, Row.visible_of_holder rfl]
    | none =>
      have ho' : (s.setCounter τ ⟨(s.counters τ).committed, some t,
        (s.counters τ).visible t⟩).counterOf t τ = none := ho
      simp only [Db.load, ho'] at he
      obtain ⟨rfl, rfl⟩ := Prod.mk.inj he
      refine ⟨allowed_setCounter_setObj hi hk hw, congrArg Row.holder hrow, rfl, rfl, ?_, ⟨w, w⟩,
        rfl, ?_,
        Or.inr ⟨rfl, rfl, ?_⟩⟩
      · unfold seenActive
        exact (congrArg (fun r : Row (Option CapacityCounter) => activeOf (r.visible t)) hrow).trans
          (by rw [Row.visible_of_holder rfl])
      · rw [setObj_counterOf, if_pos rfl]
      · exact (congrArg (fun r : Row (Option CapacityCounter) => activeOf r.written) hrow).trans
          (by rw [hv]; rfl)

theorem activeOf_store (l n : CapacityCounter) {w : Option CapacityCounter} (hw : w ≠ none) :
    activeOf (w.map (CapacityCounter.store l n)) =
      if n.activeCount = l.activeCount then activeOf w else n.activeCount := by
  cases w with
  | none => exact absurd rfl hw
  | some w => rfl

/-- The flush of the counter of `τ`, which the session has locked. -/
theorem exec_flush {o : Obj} {y : Unit} (hi : Inv τ L s) (ho : s.counterOf t τ = some o)
    (hh : (s.counters τ).holder = some t) (he : exec t (.flushCounter τ) c s = some (s', y)) :
    (ledger τ L).Allowed t s s' ∧ (s'.counters τ).holder = some t ∧
      s'.reservations = s.reservations ∧ seenOpen τ t s' = seenOpen τ t s ∧
      s'.counterOf t τ = some ⟨o.now, o.now⟩ ∧ seenActive τ t s' =
        if o.now.activeCount = o.loaded.activeCount then seenActive τ t s
        else o.now.activeCount := by
  obtain ⟨v, hv, he⟩ := Option.map_eq_some_iff.mp he
  obtain ⟨rfl, -⟩ := Prod.mk.inj he
  unfold Db.flushCounter at hv
  rw [ho] at hv
  by_cases hn : o.now = o.loaded
  · simp only [if_pos hn] at hv
    cases hv
    refine ⟨allowed_refl hi, hh, rfl, rfl, ?_, by rw [if_pos (congrArg _ hn)]⟩
    rw [ho]
    obtain ⟨l, n⟩ := o
    cases hn
    rfl
  · simp only [if_neg hn] at hv
    obtain ⟨r, hr, rfl⟩ := Option.map_eq_some_iff.mp hv
    have hk := Row.kept_update hr
    obtain ⟨-, rfl⟩ := Row.update_eq hr
    rw [Row.visible_of_holder hh] at hk ⊢
    have hw : (s.counters τ).written.map (CapacityCounter.store o.loaded o.now) ≠ none := by
      cases hx : (s.counters τ).written with
      | none => exact absurd hx hi.written
      | some x => exact nofun
    have hrow : (s.setCounter τ ⟨(s.counters τ).committed, some t, (s.counters τ).written.map
        (CapacityCounter.store o.loaded o.now)⟩).counters τ = ⟨_, some t, _⟩ :=
      Function.update_self _ _ _
    refine ⟨allowed_setCounter_setObj hi hk fun _ => hw, ?_, rfl, rfl, ?_, ?_⟩
    · exact congrArg Row.holder hrow
    · rw [setObj_counterOf, if_pos rfl]
    · refine (congrArg (fun r : Row (Option CapacityCounter) => activeOf (r.visible t)) hrow).trans ?_
      rw [Row.visible_of_holder rfl, activeOf_store _ _ hi.written]
      unfold seenActive
      rw [Row.visible_of_holder hh]

theorem seenActive_of_holder (h : (s.counters τ).holder = some t) :
    seenActive τ t s = activeOf (s.counters τ).written := by
  unfold seenActive
  rw [Row.visible_of_holder h]

/-- Whoever holds the counter row sees the same count until it writes. -/
theorem held_rely (hr : Rely τ t s s') (hh : (s.counters τ).holder = some t) :
    (s'.counters τ).holder = some t ∧ seenActive τ t s' = seenActive τ t s ∧
      seenOpen τ t s' = seenOpen τ t s := by
  have ha : seenActive τ t s' = seenActive τ t s := by
    unfold seenActive
    rw [hr.counter hh]
  have := hr.sums
  exact ⟨hr.counterHolder.mpr hh, ha, by omega⟩

/-- The object of the counter is changed and flushed. -/
theorem wp_adjust {f : CapacityCounter → CapacityCounter} {o : Obj} {g : Txn α}
    {Q : Except Unit α → Db → Prop} (ho : s.counterOf t τ = some o)
    (hh : (s.counters τ).holder = some t)
    (hg : ∀ s', (s'.counters τ).holder = some t → s'.counterOf t τ = some ⟨f o.now, f o.now⟩ →
      seenActive τ t s' = (if (f o.now).activeCount = o.loaded.activeCount then seenActive τ t s
        else (f o.now).activeCount) →
      seenOpen τ t s' = seenOpen τ t s → (∀ rs, Reads t rs s → Reads t rs s') →
      (ledger τ L).wp t k g.run Q s') :
    (ledger τ L).wp t k (do
      perform (.assignCounter τ f)
      perform (.flushCounter τ)
      g : Txn α).run Q s := by
  refine wp_perform_bind.mpr fun s₁ hr₁ hi₁ _ c₁ s₂ y₁ he₁ => ?_
  obtain ⟨hh₁, ha₁, hs₁⟩ := held_rely hr₁ hh
  have ho₁ : s₁.counterOf t τ = some o := (congrFun hr₁.obj τ).trans ho
  simp only [exec, ho₁] at he₁
  obtain ⟨rfl, -⟩ := Prod.mk.inj (Option.some.inj he₁)
  refine ⟨allowed_setObj hi₁, wp_perform_bind.mpr fun s₃ hr₃ hi₃ _ c₃ s₄ y₃ he₃ => ?_⟩
  have hh₂ : ((s₁.setObj t τ ⟨o.loaded, f o.now⟩).counters τ).holder = some t := hh₁
  obtain ⟨hh₃, ha₃, hs₃⟩ := held_rely hr₃ hh₂
  have ho₃ : s₃.counterOf t τ = some ⟨o.loaded, f o.now⟩ := by
    rw [hr₃.obj, setObj_counterOf, if_pos rfl]
  obtain ⟨hal, hh₄, hres, hs₄, ho₄, ha₄⟩ := exec_flush hi₃ ho₃ hh₃ he₃
  refine ⟨hal, hg s₄ hh₄ ho₄ ?_ ?_ fun rs hrs => ?_⟩
  · have ha₂ : seenActive τ t (s₁.setObj t τ ⟨o.loaded, f o.now⟩) = seenActive τ t s := ha₁
    rw [ha₄, ha₃, ha₂]
  · rw [hs₄, hs₃]
    exact hs₁
  · have h₁ : Reads t rs s₁ := hrs.rely hr₁
    have h₃ := Reads.rely (s := s₁.setObj t τ ⟨o.loaded, f o.now⟩) hr₃ h₁
    unfold Reads
    rw [hres]
    exact h₃

end own

/-- The update that closes a reservation that was still open. -/
theorem exec_close {r : CapacityReservation} {moment : ℕ} {y : Unit} (hi : Inv τ L s)
    (hs : Settled τ L t s) (hr : Reads t [r] s)
    (hopen : ∀ x ∈ (s.reservations r.id).visible t, Db.isOpen x = true)
    (he : exec t (.updateReservation r.id moment) c s = some (s', y)) :
    Accounts τ L t 0 (if r.tenant = τ then 1 else 0) s' ∧ Fresh τ t s' ∧
      ∀ rs, Reads t rs s → Reads t rs s' := by
  obtain ⟨q, hq, he⟩ := Option.map_eq_some_iff.mp he
  obtain ⟨rfl, -⟩ := Prod.mk.inj he
  obtain ⟨-, rfl⟩ := Row.update_eq hq
  obtain ⟨x, hx, ht⟩ := hr r (List.mem_singleton.mpr rfl)
  have hview : ∀ j, ((s.setReservation r.id ⟨(s.reservations r.id).committed, some t,
      ((s.reservations r.id).visible t).map (CapacityReservation.release moment)⟩).reservations
        j).visible t =
      if j = r.id then some (x.release moment) else (s.reservations j).visible t := fun j => by
    rw [setReservation_reservations]
    split_ifs
    · rw [Row.visible_of_holder rfl, hx, Option.map_some]
    · rfl
  have hcount : seenOpen τ t (s.setReservation r.id ⟨(s.reservations r.id).committed, some t,
      ((s.reservations r.id).visible t).map (CapacityReservation.release moment)⟩) +
      (if r.tenant = τ then 1 else 0) = seenOpen τ t s := by
    have hclosed : isOpenOf τ (some (x.release moment)) = false := Bool.and_false _
    have hwas : isOpenOf τ (some x) = decide (r.tenant = τ) := by
      rw [isOpenOf, ht, hopen x hx, Bool.and_true]
    have := countP_change (f := fun j => isOpenOf τ
        (if j = r.id then some (x.release moment) else (s.reservations j).visible t))
      (g := fun j => isOpenOf τ ((s.reservations j).visible t)) hi.nodup (mem_of_visible hi hx)
      (fun j hj => by rw [if_neg hj])
    simp only [↓reduceIte, hx, hclosed, hwas] at this
    unfold seenOpen
    simp only [hview]
    split_ifs with hτ
    · simp only [hτ, decide_true, Bool.toNat_true, Bool.toNat_false, Nat.add_zero] at this
      exact this
    · simp only [hτ, decide_false, Bool.toNat_false, Nat.add_zero] at this
      exact this
  refine ⟨⟨?_, hs.accounts.bound⟩, hs.fresh, fun rs hrs r' hr' => ?_⟩
  · rw [hcount]
    exact hs.accounts.sum
  · obtain ⟨z, hz, hzt⟩ := hrs r' hr'
    rw [hview]
    split_ifs with hj
    · rw [hj] at hz
      cases hz.symm.trans hx
      exact ⟨_, rfl, hzt⟩
    · exact ⟨z, hz, hzt⟩

theorem Accounts.le (h : Accounts τ L t a b s) (hi : Inv τ L s) : seenActive τ t s ≤ L := by
  by_cases hh : (s.counters τ).holder = some t
  · exact h.bound hh
  · obtain ⟨c, hc, -, hl⟩ := hi.counter
    unfold seenActive
    rw [Row.visible_of_not_holder hh, hc]
    exact hl

/-- The decrement that follows the closing of one of the tenant's reservations. -/
theorem wp_decrement (ha : Accounts τ L t 0 1 s) (hf : Fresh τ t s) (hrd : Reads t rs s) :
    (ledger τ L).wp t k (decrement τ).run (fun _ => Sweeping τ L t rs) s := by
  refine wp_perform_bind.mpr fun s₁ hr₁ hi₁ _ c₁ s₂ y₁ he₁ => ?_
  have ha₁ := ha.rely hr₁
  obtain ⟨hal, hh₂, hres, ho₂, hac₂, o, rfl, hobj, ho⟩ := exec_lock hi₁ he₁
  have hrd₂ : Reads t rs s₂ := by
    have := hrd.rely hr₁
    unfold Reads
    rw [hres]
    exact this
  have hagree : o.now = o.loaded ∧ seenActive τ t s₂ = o.now.activeCount := by
    rcases ho with ho | ⟨-, hn, hw⟩
    · obtain ⟨hn, hh, hw⟩ := (hf.rely hr₁) o ho
      exact ⟨hn, hac₂.trans ((seenActive_of_holder hh).trans hw)⟩
    · exact ⟨hn, (seenActive_of_holder hh₂).trans hw⟩
  obtain ⟨hn, hact⟩ := hagree
  have hsum := ha₁.sum
  have hle := ha₁.le hi₁
  refine ⟨hal, wp_adjust hobj hh₂ fun s₃ hh₃ hobj₃ hac₃ ho₃ hrd₃ => ?_⟩
  have hne : o.now.activeCount - 1 ≠ o.loaded.activeCount := by
    rw [← hn]
    omega
  have hac₃ : seenActive τ t s₃ = o.now.activeCount - 1 := hac₃.trans (if_neg hne)
  refine (Protocol.wp_pure _).mpr ⟨⟨⟨by omega, fun _ => by omega⟩, fun o' ho' => ?_⟩,
    hrd₃ rs hrd₂⟩
  cases hobj₃.symm.trans ho'
  exact ⟨rfl, hh₃, (seenActive_of_holder hh₃).symm.trans hac₃⟩

theorem wp_release {r : CapacityReservation} {moment : ℕ} (h : Sweeping τ L t (r :: rs) s) :
    (ledger τ L).wp t k (release r moment).run (fun _ => Sweeping τ L t rs) s := by
  refine wp_perform_bind.mpr fun s₁ hr₁ hi₁ hc₁ c₁ s₂ y₁ he₁ => ?_
  have hs₁ := h.settled.rely hr₁
  have hrd₁ := h.reads.rely hr₁
  obtain ⟨ha₂, hf₂, hrd₂⟩ := exec_close hi₁ hs₁
    (fun x hx => hrd₁ x (List.mem_singleton.mp hx ▸ List.mem_cons_self)) (hc₁.2 r.id rfl) he₁
  have hrd₂ : Reads t rs s₂ := fun x hx => hrd₂ _ hrd₁ x (List.mem_cons_of_mem _ hx)
  refine ⟨allowed_updateReservation hi₁ he₁, ?_⟩
  by_cases hτ : r.tenant = τ
  · rw [if_pos hτ] at ha₂
    rw [hτ]
    exact wp_decrement ha₂ hf₂ hrd₂
  · rw [if_neg hτ] at ha₂
    refine keeps_other ?_ s₂ ⟨⟨ha₂, hf₂⟩, hrd₂⟩
    refine Task.uses_bind (Task.uses_perform hτ) fun counter => ?_
    cases counter with
    | none => trivial
    | some _ =>
      exact Task.uses_bind (Task.uses_perform hτ) fun _ =>
        Task.uses_bind (Task.uses_perform hτ) fun _ => trivial

theorem Reads.tail {r : CapacityReservation} (h : Reads t (r :: rs) s) : Reads t rs s :=
  fun x hx => h x (List.mem_cons_of_mem r hx)

theorem wp_sweepEach {moment : ℕ} (h : Sweeping τ L t rs s) :
    (ledger τ L).wp t k (sweepEach moment rs).run (fun _ => Settled τ L t) s := by
  induction rs generalizing s with
  | nil => exact h.settled
  | cons r rs ih =>
    refine wp_perform_bind.mpr fun s₁ hr₁ hi₁ _ c₁ s₂ status he₁ => ?_
    obtain ⟨rfl, -⟩ := Prod.mk.inj (Option.some.inj he₁)
    have h₁ := h.rely hr₁
    refine ⟨allowed_refl hi₁, ?_⟩
    split
    · refine Protocol.wp_task_bind.mpr (Protocol.wp_mono (wp_release h₁) fun y s₃ h₃ => ?_)
      cases y with
      | error e => exact h₃.settled
      | ok _ =>
        refine Protocol.wp_task_bind.mpr (Protocol.wp_mono (ih h₃) fun y s₄ h₄ => ?_)
        cases y <;> exact h₄
    · exact ih ⟨h₁.settled, h₁.reads.tail⟩

theorem reads_openReservations (hi : Inv τ L s) (h : ∀ r ∈ rs, r ∈ s.openReservations t) :
    Reads t rs s := by
  intro r hr
  obtain ⟨i, -, hv⟩ := List.mem_filterMap.mp (h r hr)
  obtain ⟨hv, -⟩ := Option.filter_eq_some_iff.mp hv
  have hid : r.id = i := by
    unfold Row.visible at hv
    split_ifs at hv
    · exact (hi.rows i).written r hv
    · exact (hi.rows i).committed r hv
  exact ⟨r, hid ▸ hv, rfl⟩

/-- Reads, clock readings and fresh identifiers. -/
theorem wp_unchanged {f : Answer x → Txn α} {Q : Except Unit α → Db → Prop}
    (hx : ∀ c s s' y, exec t x c s = some (s', y) → s' = s)
    (h : ∀ s', Rely τ t s s' → Inv τ L s' → ∀ c y, exec t x c s' = some (s', y) →
      (ledger τ L).wp t k (f y).run Q s') :
    (ledger τ L).wp t k (perform x >>= f).run Q s := by
  refine wp_perform_bind.mpr fun s₁ hr hi _ c s₂ y he => ?_
  cases hx c s₁ s₂ y he
  exact ⟨allowed_refl hi, h s₁ hr hi c y he⟩

theorem wp_releaseCapacity (bot : ℕ) (h : Settled τ L t s) :
    (ledger τ L).wp t k (releaseCapacity bot).run (fun _ => Settled τ L t) s := by
  refine wp_unchanged (fun _ _ _ _ he => (Prod.mk.inj (Option.some.inj he)).1.symm)
    fun s₁ hr₁ hi₁ _ y he => ?_
  have hy : (s₁.openReservations t).find? _ = y := (Prod.mk.inj (Option.some.inj he)).2
  cases y with
  | none => exact h.rely hr₁
  | some r =>
    have hrd : Reads t [r] s₁ := reads_openReservations hi₁ fun r' hr' =>
      List.mem_singleton.mp hr' ▸ List.mem_of_find?_eq_some hy
    refine wp_unchanged (fun _ _ _ _ he => (Prod.mk.inj (Option.some.inj he)).1.symm)
      fun s₂ hr₂ _ _ moment _ => ?_
    exact Protocol.wp_mono (wp_release ⟨(h.rely hr₁).rely hr₂, hrd.rely hr₂⟩)
      fun _ _ h => h.settled

theorem wp_sweepCapacity (h : Settled τ L t s) :
    (ledger τ L).wp t k sweepCapacity.run (fun _ => Settled τ L t) s := by
  refine wp_unchanged (fun _ _ _ _ he => (Prod.mk.inj (Option.some.inj he)).1.symm)
    fun s₁ hr₁ _ _ moment _ => ?_
  refine wp_unchanged (fun _ _ _ _ he => (Prod.mk.inj (Option.some.inj he)).1.symm)
    fun s₂ hr₂ hi₂ _ y he => ?_
  have hy : s₂.openReservations t = y := (Prod.mk.inj (Option.some.inj he)).2
  exact wp_sweepEach ⟨(h.rely hr₁).rely hr₂, reads_openReservations hi₂ fun r hr => hy ▸ hr⟩

/-- The counter row is locked, and `counter` is what the session takes it to be. -/
structure Locked (τ t : ℕ) (counter : CapacityCounter) (s : Db) : Prop where
  held : (s.counters τ).holder = some t
  obj : ∃ o, s.counterOf t τ = some o ∧ o.now = counter ∧
    o.loaded.activeCount = counter.activeCount

theorem Locked.rely {counter : CapacityCounter} (hr : Rely τ t s s') (h : Locked τ t counter s) :
    Locked τ t counter s' :=
  ⟨(held_rely hr h.held).1, by rw [hr.obj]; exact h.obj⟩

/-- The first read of the counter of `τ`, without a lock. -/
theorem exec_get {y : Answer (.getCounter τ)} (hi : Inv τ L s) (hf : Fresh τ t s)
    (he : exec t (.getCounter τ) c s = some (s', y)) : (ledger τ L).Allowed t s s' ∧
      (Accounts τ L t a b s → Accounts τ L t a b s') ∧
      ∃ o, y = some o.now ∧ s'.counterOf t τ = some o ∧ o.now = o.loaded := by
  simp only [exec] at he
  split at he
  · rename_i o ho
    obtain ⟨rfl, rfl⟩ := Prod.mk.inj (Option.some.inj he)
    exact ⟨allowed_refl hi, id, o, rfl, ho, (hf o ho).1⟩
  · rename_i ho
    cases hv : (s.counters τ).visible t with
    | none => exact absurd hv (visible_ne_none hi)
    | some w =>
      simp only [hv, Db.load, ho] at he
      obtain ⟨rfl, rfl⟩ := Prod.mk.inj (Option.some.inj he)
      exact ⟨allowed_setObj hi, fun h => ⟨h.sum, h.bound⟩, ⟨w, w⟩, rfl,
        by rw [setObj_counterOf, if_pos rfl], rfl⟩

theorem wp_lockedCounter (h : Settled τ L t s) :
    (ledger τ L).wp t k (lockedCounter τ L).run (fun r s' => ∀ counter, r = .ok counter →
      counter.limit = L ∧ Accounts τ L t 0 0 s' ∧ Locked τ t counter s') s := by
  refine wp_perform_bind.mpr fun s₁ hr₁ hi₁ _ c₁ s₂ y he₁ => ?_
  have h₁ := h.rely hr₁
  obtain ⟨hal₁, hac₂, o, rfl, ho₂, hclean⟩ := exec_get hi₁ h₁.fresh he₁
  have hac₂ := hac₂ h₁.accounts
  refine ⟨hal₁, wp_perform_bind.mpr fun s₃ hr₃ hi₃ _ c₃ s₄ y he₃ => ?_⟩
  have hac₃ := hac₂.rely hr₃
  have ho₃ : s₃.counterOf t τ = some o := (congrFun hr₃.obj τ).trans ho₂
  obtain ⟨hal₃, hh₄, -, hop₄, hact₄, o', rfl, ho₄, ho'⟩ := exec_lock hi₃ he₃
  obtain rfl : o' = o := by
    rcases ho' with ho' | ⟨ho', -⟩
    · exact Option.some.inj (ho'.symm.trans ho₃)
    · cases ho'.symm.trans ho₃
  refine ⟨hal₃, wp_adjust ho₄ hh₄ fun s₅ hh₅ ho₅ hact₅ hop₅ _ => ?_⟩
  rw [if_pos (congrArg CapacityCounter.activeCount hclean), hact₄] at hact₅
  refine (Protocol.wp_pure _).mpr fun counter hcounter => ?_
  cases hcounter
  refine ⟨rfl, ⟨?_, fun _ => hact₅ ▸ hac₃.le hi₃⟩, hh₅, _, ho₅, rfl, rfl⟩
  rw [hact₅, hop₅, hop₄]
  exact hac₃.sum

end Fakery.Capacity

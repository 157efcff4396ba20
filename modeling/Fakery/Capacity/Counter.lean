import Fakery.Capacity.Runner

/-! The counter against the reservations. A transaction that ends has changed both by the same
amount, as far as it started from the count of the row that it locked and closed reservations
that were open. -/
namespace Fakery.Capacity
open Fakery.Bots Fakery.Concurrent Fakery.Postgres

variable {t u τ L i : ℕ} {k : Op} {x : Stmt} {c : Outcome} {s s' s₁ s₂ s₃ : Db}

def isOpenOf (τ : ℕ) : Option CapacityReservation → Bool
  | none => false
  | some r => r.tenant = τ && Db.isOpen r

/-- The open reservations of a tenant in the committed rows. -/
def openCount (τ : ℕ) (s : Db) : ℕ :=
  s.ids.countP fun i => isOpenOf τ (s.reservations i).committed

def seenOpen (τ t : ℕ) (s : Db) : ℕ :=
  s.ids.countP fun i => isOpenOf τ ((s.reservations i).visible t)

def activeOf (x : Option CapacityCounter) : ℕ := (x.map CapacityCounter.activeCount).getD 0

def seenActive (τ t : ℕ) (s : Db) : ℕ := activeOf ((s.counters τ).visible t)

/-- A row keeps its identifier and its tenant. -/
structure RowInv (i : ℕ) (r : Row (Option CapacityReservation)) : Prop where
  kept : ∀ x, r.committed = some x → ∃ y, r.written = some y ∧ y.tenant = x.tenant
  committed : ∀ x, r.committed = some x → x.id = i
  written : ∀ x, r.written = some x → x.id = i

structure Inv (τ L : ℕ) (s : Db) : Prop where
  nodup : s.ids.Nodup
  listed : ∀ i, i ∉ s.ids → (s.reservations i).committed = none ∧ (s.reservations i).written = none
  rows : ∀ i, RowInv i (s.reservations i)
  counter : ∃ c, (s.counters τ).committed = some c ∧ c.activeCount = openCount τ s ∧
    c.activeCount ≤ L
  written : (s.counters τ).written ≠ none

/-- What one transaction relies on: the others change what it sees of the counter and of the
reservations by the same amount. -/
structure Rely (τ u : ℕ) (s s' : Db) : Prop where
  obj : s'.counterOf u = s.counterOf u
  counter : (s.counters τ).holder = some u → s'.counters τ = s.counters τ
  counterHolder : (s'.counters τ).holder = some u ↔ (s.counters τ).holder = some u
  held : ∀ i, (s.reservations i).holder = some u → s'.reservations i = s.reservations i
  holder : ∀ i, (s'.reservations i).holder = some u ↔ (s.reservations i).holder = some u
  kept : ∀ i x, (s.reservations i).committed = some x →
    ∃ y, (s'.reservations i).committed = some y ∧ y.tenant = x.tenant
  sums : seenOpen τ u s' + seenActive τ u s = seenOpen τ u s + seenActive τ u s'

/-- The limit that a worker brings along, with its tenant. -/
def Op.limit : Op → Option (ℕ × ℕ)
  | tryReserve tenant limit _ _ => some (tenant, limit)
  | _ => none

/-- All workers use the limit `L` for the tenant `τ`. -/
def sameLimit (τ L : ℕ) : capacity.Condition where
  start _ k _ := ∀ x ∈ k.limit, x.1 = τ → x.2 = L

def Stmt.inserted : Stmt → Option CapacityReservation
  | insertReservation r => some r
  | _ => none

def Stmt.closed : Stmt → Option ℕ
  | updateReservation id _ => some id
  | _ => none

/-- An insertion starts from the count of the row that is locked by then, and a reservation that
is closed is still open. -/
def upToDate (τ L : ℕ) : capacity.Condition where
  start := (sameLimit τ L).start
  call t _ x s :=
    (∀ r ∈ x.inserted, ∀ o ∈ s.counterOf t r.tenant, ∀ c ∈ (s.counters r.tenant).visible t,
      o.now.activeCount = c.activeCount) ∧
    ∀ id ∈ x.closed, ∀ r ∈ (s.reservations id).visible t, Db.isOpen r = true

instance (t : ℕ) (k : Op) (s : Db) : Decidable ((sameLimit τ L).start t k s) :=
  inferInstanceAs (Decidable (∀ x ∈ k.limit, _))

instance (t : ℕ) (k : Op) (x : Stmt) (s : Db) : Decidable ((sameLimit τ L).call t k x s) :=
  isTrue trivial

instance (t : ℕ) (s : Db) : Decidable ((sameLimit τ L).kill t s) := isTrue trivial

instance (e : Empty) (s : Db) : Decidable ((sameLimit τ L).env e s) := isTrue trivial

instance (t : ℕ) (k : Op) (s : Db) : Decidable ((upToDate τ L).start t k s) :=
  inferInstanceAs (Decidable (∀ x ∈ k.limit, _))

instance (t : ℕ) (k : Op) (x : Stmt) (s : Db) : Decidable ((upToDate τ L).call t k x s) :=
  inferInstanceAs (Decidable ((∀ r ∈ x.inserted, _) ∧ ∀ id ∈ x.closed, _))

instance (t : ℕ) (s : Db) : Decidable ((upToDate τ L).kill t s) := isTrue trivial

instance (e : Empty) (s : Db) : Decidable ((upToDate τ L).env e s) := isTrue trivial

def ledger (τ L : ℕ) : Protocol capacity where
  cond := upToDate τ L
  inv := Inv τ L
  rely := Rely τ
  idle t s := (s.counters τ).holder ≠ some t ∧ ∀ i, (s.reservations i).holder ≠ some t
  rely_refl _ _ := ⟨rfl, fun _ => rfl, Iff.rfl, fun _ _ => rfl, fun _ => Iff.rfl,
    fun _ x h => ⟨x, h, rfl⟩, rfl⟩
  rely_trans _ _ _ _ h k := by
    refine ⟨k.obj.trans h.obj, fun hc => ?_, k.counterHolder.trans h.counterHolder, fun i hi => ?_,
      fun i => (k.holder i).trans (h.holder i), fun i x hx => ?_, ?_⟩
    · rw [k.counter (h.counterHolder.mpr hc), h.counter hc]
    · rw [k.held i ((h.holder i).mpr hi), h.held i hi]
    · obtain ⟨y, hy, hyx⟩ := h.kept i x hx
      obtain ⟨z, hz, hzy⟩ := k.kept i y hy
      exact ⟨z, hz, hzy.trans hyx⟩
    · have h₁ := h.sums
      have h₂ := k.sums
      omega

theorem countP_cons_toNat (p : ℕ → Bool) (i : ℕ) (ids : List ℕ) :
    (i :: ids).countP p = ids.countP p + (p i).toNat := by
  cases h : p i <;> simp [h]

theorem countP_add {f g p q : ℕ → Bool} (ids : List ℕ)
    (h : ∀ i, (p i).toNat + (q i).toNat = (f i).toNat + (g i).toNat) :
    ids.countP p + ids.countP q = ids.countP f + ids.countP g := by
  induction ids with
  | nil => rfl
  | cons i ids ih =>
    have hi := h i
    simp only [countP_cons_toNat]
    omega

/-- One row changes. -/
theorem countP_change {f g : ℕ → Bool} {ids : List ℕ} (hnd : ids.Nodup) (hi : i ∈ ids)
    (h : ∀ j, j ≠ i → f j = g j) :
    ids.countP f + (g i).toNat = ids.countP g + (f i).toNat := by
  induction ids with
  | nil => cases hi
  | cons j ids ih =>
    obtain ⟨hj, hnd⟩ := List.nodup_cons.mp hnd
    simp only [countP_cons_toNat]
    rcases List.mem_cons.mp hi with rfl | hi
    · have he : ids.countP f = ids.countP g := List.countP_congr fun x hx => by
        rw [h x fun he => hj (he ▸ hx)]
      omega
    · rw [h j fun he => hj (he ▸ hi)]
      have := ih hnd hi
      omega

/-- A statement before the end of a transaction. -/
structure Inner (t : ℕ) (s s' : Db) : Prop where
  obj : ∀ u, u ≠ t → s'.counterOf u = s.counterOf u
  counters : ∀ tenant, Row.Kept t (s.counters tenant) (s'.counters tenant)
  reservations : ∀ i, Row.Kept t (s.reservations i) (s'.reservations i)
  ids : s'.ids = s.ids ∨ ∃ i, i ∉ s.ids ∧ s'.ids = s.ids ++ [i]

theorem countP_ids {f : ℕ → Bool} {ids ids' : List ℕ}
    (h : ids' = ids ∨ ∃ i, i ∉ ids ∧ ids' = ids ++ [i]) (hf : ∀ i, i ∉ ids → f i = false) :
    ids'.countP f = ids.countP f := by
  rcases h with rfl | ⟨i, hi, rfl⟩
  · rfl
  · simp [List.countP_append, hf i hi]

theorem Inner.openCount (h : Inner t s s') (hi : Inv τ L s) : openCount τ s' = openCount τ s := by
  unfold Capacity.openCount
  have hc : ∀ i, (s'.reservations i).committed = (s.reservations i).committed :=
    fun i => (h.reservations i).committed
  simp only [hc]
  exact countP_ids h.ids fun i hn => by rw [(hi.listed i hn).1]; rfl

theorem Inner.seen (h : Inner t s s') (hi : Inv τ L s) (hu : u ≠ t) :
    seenOpen τ u s' = seenOpen τ u s ∧ seenActive τ u s' = seenActive τ u s := by
  unfold seenOpen seenActive
  have hv : ∀ i, (s'.reservations i).visible u = (s.reservations i).visible u :=
    fun i => (h.reservations i).visible hu
  simp only [hv, (h.counters τ).visible hu, and_true]
  refine countP_ids h.ids fun i hn => ?_
  have hl := hi.listed i hn
  unfold Row.visible
  rw [hl.1, hl.2, ite_self]
  rfl

theorem Inner.rely (h : Inner t s s') (hi : Inv τ L s) (hu : u ≠ t) : Rely τ u s s' := by
  obtain ⟨ho, ha⟩ := h.seen hi hu
  exact ⟨h.obj u hu, fun hc => (h.counters τ).eq_of_holder hu hc, (h.counters τ).holder_iff hu,
    fun i hr => (h.reservations i).eq_of_holder hu hr, fun i => (h.reservations i).holder_iff hu,
    fun i x hx => ⟨x, (h.reservations i).committed.trans hx, rfl⟩, by rw [ho, ha]⟩

theorem Inner.allowed (h : Inner t s s') (hi : Inv τ L s)
    (hlisted : ∀ i, i ∉ s'.ids → (s'.reservations i).written = none)
    (hrows : ∀ i, RowInv i (s'.reservations i)) (hw : (s'.counters τ).written ≠ none) :
    (ledger τ L).Allowed t s s' := by
  refine ⟨⟨?_, fun i hn => ⟨?_, hlisted i hn⟩, hrows, ?_, hw⟩, fun u hu => h.rely hi hu, trivial⟩
  · rcases h.ids with he | ⟨i, hn, he⟩ <;> rw [he]
    · exact hi.nodup
    · refine List.nodup_append.mpr ⟨hi.nodup, by simp, fun a ha b hb hab => hn ?_⟩
      exact List.mem_singleton.mp hb ▸ hab ▸ ha
  · rw [(h.reservations i).committed]
    refine (hi.listed i fun hm => hn ?_).1
    rcases h.ids with he | ⟨j, -, he⟩ <;> rw [he]
    · exact hm
    · exact List.mem_append_left _ hm
  · obtain ⟨c, hc, hn, hl⟩ := hi.counter
    exact ⟨c, (h.counters τ).committed.trans hc, hn.trans (h.openCount hi).symm, hl⟩

theorem Inner.of_eq (hr : s'.reservations = s.reservations) (hids : s'.ids = s.ids)
    (hc : ∀ tenant, Row.Kept t (s.counters tenant) (s'.counters tenant))
    (ho : ∀ u, u ≠ t → s'.counterOf u = s.counterOf u) : Inner t s s' :=
  ⟨ho, hc, fun _ => hr ▸ Or.inl rfl, Or.inl hids⟩

/-- A statement that touches no reservation. -/
theorem allowed_of_counters (hi : Inv τ L s) (hr : s'.reservations = s.reservations)
    (hids : s'.ids = s.ids) (hc : ∀ tenant, Row.Kept t (s.counters tenant) (s'.counters tenant))
    (ho : ∀ u, u ≠ t → s'.counterOf u = s.counterOf u) (hw : (s'.counters τ).written ≠ none) :
    (ledger τ L).Allowed t s s' :=
  (Inner.of_eq hr hids hc ho).allowed hi (fun i hn => hr ▸ (hi.listed i (hids ▸ hn)).2)
    (fun i => hr ▸ hi.rows i) hw

theorem allowed_refl (hi : Inv τ L s) : (ledger τ L).Allowed t s s :=
  allowed_of_counters hi rfl rfl (fun _ => Or.inl rfl) (fun _ _ => rfl) hi.written

theorem counterOf_setObj {tenant : ℕ} {o : Obj} (hu : u ≠ t) :
    (s.setObj t tenant o).counterOf u = s.counterOf u := Function.update_of_ne hu _ _

theorem allowed_setObj {tenant : ℕ} {o : Obj} (hi : Inv τ L s) :
    (ledger τ L).Allowed t s (s.setObj t tenant o) :=
  allowed_of_counters hi rfl rfl (fun _ => Or.inl rfl) (fun _ hu => counterOf_setObj hu) hi.written

theorem kept_setCounter {tenant : ℕ} {r : Row (Option CapacityCounter)}
    (h : Row.Kept t (s.counters tenant) r) (tenant' : ℕ) :
    Row.Kept t (s.counters tenant') ((s.setCounter tenant r).counters tenant') := by
  unfold Db.setCounter
  by_cases ht : tenant' = tenant
  · subst ht
    simpa using h
  · simp only [Function.update_of_ne ht]
    exact Or.inl rfl

theorem written_setCounter {tenant : ℕ} {r : Row (Option CapacityCounter)} (hi : Inv τ L s)
    (h : τ = tenant → r.written ≠ none) : ((s.setCounter tenant r).counters τ).written ≠ none := by
  unfold Db.setCounter
  by_cases ht : τ = tenant
  · subst ht
    simpa using h rfl
  · simpa only [Function.update_of_ne ht] using hi.written

theorem allowed_setCounter {tenant : ℕ} {r : Row (Option CapacityCounter)} (hi : Inv τ L s)
    (hr : Row.Kept t (s.counters tenant) r) (h : τ = tenant → r.written ≠ none) :
    (ledger τ L).Allowed t s (s.setCounter tenant r) :=
  allowed_of_counters hi rfl rfl (kept_setCounter hr) (fun _ _ => rfl) (written_setCounter hi h)

theorem allowed_setCounter_setObj {tenant : ℕ} {r : Row (Option CapacityCounter)} {o : Obj}
    (hi : Inv τ L s) (hr : Row.Kept t (s.counters tenant) r) (h : τ = tenant → r.written ≠ none) :
    (ledger τ L).Allowed t s ((s.setCounter tenant r).setObj t tenant o) :=
  allowed_of_counters hi rfl rfl (kept_setCounter hr) (fun _ hu => counterOf_setObj hu)
    (written_setCounter hi h)

theorem visible_ne_none (hi : Inv τ L s) : (s.counters τ).visible t ≠ none := by
  obtain ⟨c, hc, -⟩ := hi.counter
  unfold Row.visible
  split_ifs
  · exact hi.written
  · rw [hc]
    exact nofun

theorem kept_setReservation {r : Row (Option CapacityReservation)}
    (h : Row.Kept t (s.reservations i) r) (j : ℕ) :
    Row.Kept t (s.reservations j) ((s.setReservation i r).reservations j) := by
  unfold Db.setReservation
  by_cases hj : j = i
  · subst hj
    simpa using h
  · simp only [Function.update_of_ne hj]
    exact Or.inl rfl

theorem setReservation_reservations {r : Row (Option CapacityReservation)} (j : ℕ) :
    (s.setReservation i r).reservations j = if j = i then r else s.reservations j :=
  Function.update_apply _ _ _ _

theorem allowed_updateReservation {moment : ℕ} {a : Unit} (hi : Inv τ L s)
    (he : exec t (.updateReservation i moment) c s = some (s', a)) :
    (ledger τ L).Allowed t s s' := by
  obtain ⟨r, hr, he⟩ := Option.map_eq_some_iff.mp he
  obtain ⟨rfl, -⟩ := Prod.mk.inj he
  have hk := Row.kept_update hr
  obtain ⟨-, rfl⟩ := Row.update_eq hr
  have hrow := hi.rows i
  have hv : ∀ x, (s.reservations i).visible t = some x → x.id = i := fun x hx => by
    unfold Row.visible at hx
    split_ifs at hx
    · exact hrow.written x hx
    · exact hrow.committed x hx
  refine Inner.allowed ⟨fun _ _ => rfl, fun _ => Or.inl rfl, kept_setReservation hk, Or.inl rfl⟩ hi
    (fun j hn => ?_) (fun j => ?_) hi.written
  · rw [setReservation_reservations]
    split_ifs with hj
    · subst hj
      obtain ⟨hc, hw⟩ := hi.listed j hn
      simp [Row.visible, hc, hw]
    · exact (hi.listed j hn).2
  · rw [setReservation_reservations]
    split_ifs with hj
    · subst hj
      refine ⟨fun x hx => ?_, hrow.committed, fun x hx => ?_⟩
      · obtain ⟨y, hy, hyx⟩ : ∃ y, (s.reservations j).visible t = some y ∧ y.tenant = x.tenant := by
          unfold Row.visible
          split_ifs
          · exact hrow.kept x hx
          · exact ⟨x, hx, rfl⟩
        exact ⟨y.release moment, by rw [hy, Option.map_some], hyx⟩
      · obtain ⟨y, hy, rfl⟩ := Option.map_eq_some_iff.mp hx
        exact hv y hy
    · exact hi.rows j

theorem insertReservation_eq {r : CapacityReservation} {a : Bool}
    (h : s.insertReservation t r = some (s', a)) : (a = false ∧ s' = s) ∨ a = true ∧
      (s.reservations r.id).Free t ∧ (s.reservations r.id).visible t = none ∧
      s'.reservations = Function.update s.reservations r.id
        ⟨(s.reservations r.id).committed, some t, some r⟩ ∧
      s'.ids = (if r.id ∈ s.ids then s.ids else s.ids ++ [r.id]) ∧
      s'.counters = s.counters ∧ s'.counterOf = s.counterOf := by
  unfold Db.insertReservation at h
  split at h
  · cases h
  split at h
  · obtain ⟨rfl, rfl⟩ := Prod.mk.inj (Option.some.inj h)
    exact Or.inl ⟨rfl, rfl⟩
  · rename_i hn
    obtain ⟨q, hq, he⟩ := Option.map_eq_some_iff.mp h
    obtain ⟨rfl, rfl⟩ := Prod.mk.inj he
    obtain ⟨hf, rfl⟩ := Row.update_eq hq
    have hv : (s.reservations r.id).visible t = none := by
      cases hv : (s.reservations r.id).visible t with
      | none => rfl
      | some x => simp [hv] at hn
    exact Or.inr ⟨rfl, hf, hv, rfl, rfl, rfl, rfl⟩

theorem allowed_insertReservation {r : CapacityReservation} {a : Bool} (hi : Inv τ L s)
    (h : s.insertReservation t r = some (s', a)) : (ledger τ L).Allowed t s s' := by
  rcases insertReservation_eq h with ⟨-, rfl⟩ | ⟨-, hf, hv, hr, hids, hc, ho⟩
  · exact allowed_refl hi
  have hrow := hi.rows r.id
  have hnone : (s.reservations r.id).committed = none := by
    cases hx : (s.reservations r.id).committed with
    | none => rfl
    | some x =>
      obtain ⟨y, hy, -⟩ := hrow.kept x hx
      unfold Row.visible at hv
      split_ifs at hv
      · cases hy.symm.trans hv
      · cases hx.symm.trans hv
  have hres : ∀ j, s'.reservations j = if j = r.id then
      ⟨(s.reservations r.id).committed, some t, some r⟩ else s.reservations j := fun j => by
    rw [hr, Function.update_apply]
  have hmem : ∀ j, j ∉ s'.ids → j ≠ r.id ∧ j ∉ s.ids := fun j hn => by
    rw [hids] at hn
    split_ifs at hn with hm
    · exact ⟨fun he => hn (he ▸ hm), hn⟩
    · exact ⟨fun he => hn (List.mem_append_right _ (List.mem_singleton.mpr he)),
        fun hj => hn (List.mem_append_left _ hj)⟩
  refine Inner.allowed ⟨fun u _ => by rw [ho], fun _ => hc ▸ Or.inl rfl, fun j => ?_, ?_⟩ hi
    (fun j hn => ?_) (fun j => ?_) (hc ▸ hi.written)
  · rw [hres]
    split_ifs with hj
    · subst hj
      exact Or.inr ⟨hf, rfl, rfl⟩
    · exact Or.inl rfl
  · rw [hids]
    split_ifs with hm
    · exact Or.inl rfl
    · exact Or.inr ⟨r.id, hm, rfl⟩
  · obtain ⟨hj, hn⟩ := hmem j hn
    rw [hres, if_neg hj]
    exact (hi.listed j hn).2
  · rw [hres]
    split_ifs with hj
    · subst hj
      refine ⟨fun x hx => ?_, fun x hx => ?_, fun x hx => ?_⟩
      · cases hnone.symm.trans hx
      · cases hnone.symm.trans hx
      · cases hx
        rfl
    · exact hi.rows j

/-- What a transaction of `t` sees of the counter and of the reservations, up to what it has not
written yet. -/
structure Accounts (τ L t a b : ℕ) (s : Db) : Prop where
  sum : seenActive τ t s + a = seenOpen τ t s + b
  bound : (s.counters τ).holder = some t → seenActive τ t s ≤ L

/-- The session has the counter row and its object agrees with it. -/
def Fresh (τ t : ℕ) (s : Db) : Prop := ∀ o, s.counterOf t τ = some o → o.now = o.loaded ∧
  (s.counters τ).holder = some t ∧ activeOf (s.counters τ).written = o.now.activeCount

/-- The reservations that were read are still in the table. -/
def Reads (t : ℕ) (rs : List CapacityReservation) (s : Db) : Prop :=
  ∀ r ∈ rs, ∃ y, (s.reservations r.id).visible t = some y ∧ y.tenant = r.tenant

variable {a b : ℕ} {rs : List CapacityReservation}

theorem Accounts.rely (hr : Rely τ t s s') (h : Accounts τ L t a b s) :
    Accounts τ L t a b s' := by
  refine ⟨?_, fun hh => ?_⟩
  · have h₁ := h.sum
    have h₂ := hr.sums
    omega
  · have hh := hr.counterHolder.mp hh
    unfold seenActive
    rw [hr.counter hh]
    exact h.bound hh

theorem Fresh.rely (hr : Rely τ t s s') (h : Fresh τ t s) : Fresh τ t s' := by
  intro o ho
  rw [hr.obj] at ho
  obtain ⟨hn, hh, ha⟩ := h o ho
  rw [hr.counter hh]
  exact ⟨hn, hh, ha⟩

theorem Reads.rely (hr : Rely τ t s s') (h : Reads t rs s) : Reads t rs s' := by
  intro r hm
  obtain ⟨y, hy, ht⟩ := h r hm
  by_cases hh : (s.reservations r.id).holder = some t
  · rw [hr.held _ hh]
    exact ⟨y, hy, ht⟩
  · rw [Row.visible_of_not_holder hh] at hy
    obtain ⟨z, hz, hzy⟩ := hr.kept _ y hy
    refine ⟨z, ?_, hzy.trans ht⟩
    rw [Row.visible_of_not_holder fun h' => hh ((hr.holder _).mp h'), hz]

/-- A transaction that has written both sides. -/
structure Settled (τ L t : ℕ) (s : Db) : Prop where
  accounts : Accounts τ L t 0 0 s
  fresh : Fresh τ t s

theorem Settled.rely (hr : Rely τ t s s') (h : Settled τ L t s) : Settled τ L t s' :=
  ⟨h.accounts.rely hr, h.fresh.rely hr⟩

end Fakery.Capacity

import Fakery.Capacity.Runner
import Mathlib.Data.List.Nodup

/-! The capacity transactions of one tenant taken whole: each is one step on the counter and the
reservations. -/
namespace Fakery.Capacity
open Fakery.Bots

/-- Reservations are never deleted, so that their number is a fresh identifier. -/
structure Ledger where
  counter : Option CapacityCounter := none
  reservations : List CapacityReservation := []

namespace Ledger

variable (l : Ledger)

def opened : List CapacityReservation := l.reservations.filter Db.isOpen

def find (bot : ℕ) : Option CapacityReservation := l.opened.find? fun r => r.botId = bot

def decrement (counter : CapacityCounter) : CapacityCounter :=
  { counter with activeCount := counter.activeCount - 1 }

def close (r : CapacityReservation) (moment : ℕ) : Ledger where
  counter := l.counter.map decrement
  reservations := l.reservations.map fun x => if x.id = r.id then x.release moment else x

def tryReserve (tenant limit bot owner acquiredAt : ℕ) : Ledger × Bool :=
  let counter : CapacityCounter := ⟨(l.counter.map CapacityCounter.activeCount).getD 0, limit⟩
  match l.find bot with
  | some current => ({ l with counter := some counter }, current.owner = owner)
  | none =>
    if counter.activeCount ≥ counter.limit then ({ l with counter := some counter }, false)
    else
      ({ counter := some { counter with activeCount := counter.activeCount + 1 }
         reservations := { id := l.reservations.length, tenant := tenant, botId := bot, owner := owner
                           acquiredAt := acquiredAt } :: l.reservations }, true)

def hasOther (bot owner : ℕ) : Bool := (l.find bot).any fun r => r.owner ≠ owner

def release (bot moment : ℕ) : Ledger :=
  match l.find bot with
  | none => l
  | some r => l.close r moment

def sweepEach (status : ℕ → Option BotStatus) (moment : ℕ) (l : Ledger) :
    List CapacityReservation → Ledger
  | [] => l
  | r :: rs =>
    if isSwept r moment (status r.botId) then sweepEach status moment (l.close r moment) rs
    else sweepEach status moment l rs

def sweep (status : ℕ → Option BotStatus) (moment : ℕ) : Ledger :=
  l.sweepEach status moment l.opened

/-- `t` owns the open reservation of `b`. -/
def Holds (b t : ℕ) : Prop := ∃ r ∈ l.opened, r.botId = b ∧ r.owner = t

def Reserved (b : ℕ) : Prop := ∃ r ∈ l.opened, r.botId = b

/-- The counter counts the open reservations, of which each bot has at most one, and keeps to the
limit. -/
structure Balanced (limit : ℕ) : Prop where
  count : (l.counter.map CapacityCounter.activeCount).getD 0 = l.opened.length
  le : l.opened.length ≤ limit
  bots : (l.opened.map CapacityReservation.botId).Nodup
  ids : (l.reservations.map CapacityReservation.id).Nodup
  fresh : ∀ r ∈ l.reservations, r.id < l.reservations.length

variable {l} {limit tenant b b' t u bot owner moment : ℕ} {r x : CapacityReservation}
  {status : ℕ → Option BotStatus} {rs : List CapacityReservation}

theorem Holds.reserved (h : l.Holds b t) : l.Reserved b := by
  obtain ⟨r, hr, hb, -⟩ := h
  exact ⟨r, hr, hb⟩

theorem find_eq_some (h : l.find b = some r) : r ∈ l.opened ∧ r.botId = b := by
  have hb := List.find?_some h
  exact ⟨List.mem_of_find?_eq_some h, of_decide_eq_true hb⟩

theorem find_eq_none (h : l.find b = none) : ¬l.Reserved b := by
  intro hres
  obtain ⟨r, hr, hb⟩ := hres
  exact List.find?_eq_none.mp h r hr (decide_eq_true hb)

/-- A bot has one open reservation. -/
theorem Balanced.eq_of_bot (h : l.Balanced limit) (hr : r ∈ l.opened) (hx : x ∈ l.opened)
    (hb : r.botId = x.botId) : r = x := List.inj_on_of_nodup_map h.bots hr hx hb

theorem Balanced.eq_of_holds (h : l.Balanced limit) (ht : l.Holds b t) (hu : l.Holds b u) :
    t = u := by
  obtain ⟨r, hr, hrb, rfl⟩ := ht
  obtain ⟨x, hx, hxb, rfl⟩ := hu
  rw [h.eq_of_bot hr hx (hrb.trans hxb.symm)]

theorem opened_close : (l.close r moment).opened = l.opened.filter fun x => x.id ≠ r.id := by
  unfold opened close
  generalize l.reservations = xs
  induction xs with
  | nil => rfl
  | cons y ys ih =>
    by_cases hy : y.id = r.id
    · have hclosed : Db.isOpen (y.release moment) = false := rfl
      simp only [List.map_cons, if_pos hy, List.filter_cons_of_neg (Bool.not_eq_true _ ▸ hclosed), ih]
      by_cases ho : Db.isOpen y
      · rw [List.filter_cons_of_pos ho, List.filter_cons_of_neg (by simp [hy])]
      · rw [List.filter_cons_of_neg ho]
    · by_cases ho : Db.isOpen y
      · simp only [List.map_cons, if_neg hy, List.filter_cons_of_pos ho, ih]
        rw [List.filter_cons_of_pos (by simp [hy])]
      · simp only [List.map_cons, if_neg hy, List.filter_cons_of_neg ho, ih]

theorem mem_opened_close : x ∈ (l.close r moment).opened ↔ x ∈ l.opened ∧ x.id ≠ r.id := by
  rw [opened_close, List.mem_filter, decide_eq_true_eq]

theorem Balanced.openedIds (h : l.Balanced limit) :
    (l.opened.map CapacityReservation.id).Nodup := (List.filter_sublist.map _).nodup h.ids

theorem length_filter_ne {α : Type} {f : α → ℕ} {a : α} {xs : List α} (hnd : (xs.map f).Nodup)
    (ha : a ∈ xs) : (xs.filter fun x => f x ≠ f a).length + 1 = xs.length := by
  induction xs with
  | nil => cases ha
  | cons y ys ih =>
    obtain ⟨hy, hnd⟩ := List.nodup_cons.mp hnd
    rcases List.mem_cons.mp ha with rfl | ha
    · have hall : ∀ z ∈ ys, (fun x => decide (f x ≠ f a)) z = true := fun z hz =>
        decide_eq_true fun he => hy (he ▸ List.mem_map_of_mem hz)
      rw [List.filter_cons_of_neg (by simp), List.filter_eq_self.mpr hall, List.length_cons]
    · have hne : f y ≠ f a := fun he => hy (he ▸ List.mem_map_of_mem ha)
      rw [List.filter_cons_of_pos (by simpa using hne), List.length_cons, List.length_cons,
        ih hnd ha]

theorem Balanced.close (h : l.Balanced limit) (hr : r ∈ l.opened) :
    (l.close r moment).Balanced limit := by
  have hlen := length_filter_ne h.openedIds hr
  have hmap : ∀ {β : Type} (f : CapacityReservation → β),
      (∀ y, f (y.release moment) = f y) → (l.close r moment).reservations.map f =
        l.reservations.map f := by
    intro β f hf
    unfold Ledger.close
    rw [List.map_map]
    refine List.map_congr_left fun y _ => ?_
    show f (if y.id = r.id then y.release moment else y) = f y
    split
    · exact hf y
    · rfl
  constructor
  · rw [opened_close]
    have hcount := h.count
    unfold Ledger.close
    cases hc : l.counter with
    | none =>
      rw [hc] at hcount
      simp only [Option.map_none, Option.getD_none] at hcount ⊢
      omega
    | some c =>
      rw [hc] at hcount
      simp only [Option.map_some, Option.getD_some, decrement] at hcount ⊢
      omega
  · rw [opened_close]
    have hle := h.le
    omega
  · rw [opened_close]
    exact (List.filter_sublist.map _).nodup h.bots
  · rw [hmap CapacityReservation.id fun _ => rfl]
    exact h.ids
  · intro y hy
    have hlength : (l.close r moment).reservations.length = l.reservations.length :=
      List.length_map _
    rw [hlength]
    obtain ⟨z, hz, rfl⟩ := List.mem_map.mp hy
    have hfresh := h.fresh z hz
    split
    · exact hfresh
    · exact hfresh

/-- What a release leaves open. -/
theorem mem_opened_release (h : l.Balanced limit) :
    x ∈ (l.release b moment).opened ↔ x ∈ l.opened ∧ x.botId ≠ b := by
  unfold release
  cases hf : l.find b with
  | none =>
    refine ⟨fun hx => ⟨hx, fun hb => ?_⟩, And.left⟩
    exact find_eq_none hf ⟨x, hx, hb⟩
  | some r =>
    obtain ⟨hr, hb⟩ := find_eq_some hf
    refine mem_opened_close.trans (and_congr_right fun hx => not_congr ⟨fun hid => ?_, fun he => ?_⟩)
    · rw [List.inj_on_of_nodup_map h.openedIds hx hr hid, hb]
    · rw [h.eq_of_bot hx hr (he.trans hb.symm)]

theorem Balanced.release (h : l.Balanced limit) : (l.release b moment).Balanced limit := by
  unfold Ledger.release
  cases hf : l.find b with
  | none => exact h
  | some r => exact h.close (find_eq_some hf).1

/-- A sweep closes the reservations that are to be swept, one after another. -/
theorem sweepEach_spec (h : l.Balanced limit) (hrs : ∀ r ∈ rs, r ∈ l.opened)
    (hnd : (rs.map CapacityReservation.id).Nodup) :
    (l.sweepEach status moment rs).Balanced limit ∧
      ∀ x, x ∈ (l.sweepEach status moment rs).opened ↔ x ∈ l.opened ∧
        ∀ r ∈ rs, isSwept r moment (status r.botId) = true → x.id ≠ r.id := by
  induction rs generalizing l with
  | nil =>
    refine ⟨h, fun x => ⟨fun hx => ⟨hx, fun r hr => ?_⟩, And.left⟩⟩
    cases hr
  | cons r rs ih =>
    obtain ⟨hnotin, hnd⟩ := List.nodup_cons.mp hnd
    have htail : ∀ y ∈ rs, y ∈ l.opened := fun y hy => hrs y (List.mem_cons_of_mem _ hy)
    unfold sweepEach
    by_cases hs : isSwept r moment (status r.botId) = true
    · have hclose : ∀ y ∈ rs, y ∈ (l.close r moment).opened := fun y hy =>
        mem_opened_close.mpr ⟨htail y hy, fun he => hnotin (he ▸ List.mem_map_of_mem hy)⟩
      have hbalanced : (l.close r moment).Balanced limit := h.close (hrs r List.mem_cons_self)
      obtain ⟨hb, hmem⟩ := ih hbalanced hclose hnd
      rw [if_pos hs]
      refine ⟨hb, fun x => ?_⟩
      rw [hmem x, mem_opened_close, List.forall_mem_cons]
      constructor
      · rintro ⟨⟨hx, hne⟩, hrest⟩
        exact ⟨hx, fun _ => hne, hrest⟩
      · rintro ⟨hx, hne, hrest⟩
        exact ⟨⟨hx, hne hs⟩, hrest⟩
    · obtain ⟨hb, hmem⟩ := ih h htail hnd
      rw [if_neg hs]
      refine ⟨hb, fun x => ?_⟩
      rw [hmem x, List.forall_mem_cons]
      constructor
      · rintro ⟨hx, hrest⟩
        exact ⟨hx, fun h => (hs h).elim, hrest⟩
      · rintro ⟨hx, -, hrest⟩
        exact ⟨hx, hrest⟩

theorem Balanced.sweep (h : l.Balanced limit) : (l.sweep status moment).Balanced limit :=
  (sweepEach_spec h (fun _ => id) h.openedIds).1

theorem mem_opened_sweep (h : l.Balanced limit) : x ∈ (l.sweep status moment).opened ↔
    x ∈ l.opened ∧ isSwept x moment (status x.botId) = false := by
  refine ((sweepEach_spec h (fun _ => id) h.openedIds).2 x).trans (and_congr_right fun hx => ?_)
  constructor
  · intro hall
    by_contra hs
    exact hall x hx ((Bool.not_eq_false _).mp hs) rfl
  · intro hs r hr hrs he
    rw [List.inj_on_of_nodup_map h.openedIds hx hr he, hrs] at hs
    cases hs

section tryReserve

variable {acquiredAt : ℕ} {l' : Ledger} {ok : Bool}

/-- An attempt leaves the reservations as they are, or adds one for a bot that has none. -/
theorem tryReserve_cases (h : l.tryReserve tenant limit b t acquiredAt = (l', ok)) :
    l'.reservations = l.reservations ∧ l'.opened = l.opened ∧
        (l'.counter.map CapacityCounter.activeCount).getD 0 =
          (l.counter.map CapacityCounter.activeCount).getD 0 ∧ (ok = true → l.Holds b t) ∨
      ok = true ∧ ¬l.Reserved b ∧ (l.counter.map CapacityCounter.activeCount).getD 0 < limit ∧
        (l'.counter.map CapacityCounter.activeCount).getD 0 =
          (l.counter.map CapacityCounter.activeCount).getD 0 + 1 ∧
        ∃ r, r.id = l.reservations.length ∧ r.botId = b ∧ r.owner = t ∧
          l'.reservations = r :: l.reservations ∧ l'.opened = r :: l.opened := by
  unfold tryReserve at h
  cases hf : l.find b with
  | some current =>
    simp only [hf] at h
    obtain ⟨rfl, rfl⟩ := Prod.mk.inj h
    obtain ⟨hr, hb⟩ := find_eq_some hf
    exact Or.inl ⟨rfl, rfl, rfl, fun hown => ⟨current, hr, hb, of_decide_eq_true hown⟩⟩
  | none =>
    simp only [hf] at h
    split at h
    · obtain ⟨rfl, rfl⟩ := Prod.mk.inj h
      exact Or.inl ⟨rfl, rfl, rfl, nofun⟩
    · rename_i hlt
      obtain ⟨rfl, rfl⟩ := Prod.mk.inj h
      exact Or.inr ⟨rfl, find_eq_none hf, Nat.lt_of_not_le hlt, rfl, _, rfl, rfl, rfl, rfl, rfl⟩

theorem Balanced.tryReserve (h : l.Balanced limit)
    (he : l.tryReserve tenant limit b t acquiredAt = (l', ok)) : l'.Balanced limit := by
  rcases tryReserve_cases he with ⟨hres, hopen, hcount, -⟩ |
      ⟨-, hnone, hlt, hcount, r, hid, hb, -, hres, hopen⟩
  · exact ⟨by rw [hcount, hopen, h.count], hopen ▸ h.le, hopen ▸ h.bots, hres ▸ h.ids,
      hres ▸ h.fresh⟩
  · have hlen : l'.opened.length = l.opened.length + 1 := by
      rw [hopen]
      rfl
    have hold := h.count
    constructor
    · omega
    · omega
    · rw [hopen]
      refine List.nodup_cons.mpr ⟨fun hm => ?_, h.bots⟩
      obtain ⟨x, hx, hxb⟩ := List.mem_map.mp hm
      exact hnone ⟨x, hx, hxb.trans hb⟩
    · rw [hres]
      refine List.nodup_cons.mpr ⟨fun hm => ?_, h.ids⟩
      obtain ⟨x, hx, hxid⟩ := List.mem_map.mp hm
      have hfresh := h.fresh x hx
      omega
    · rw [hres]
      intro x hx
      rw [List.length_cons]
      rcases List.mem_cons.mp hx with rfl | hx
      · omega
      · have hfresh := h.fresh x hx
        omega

/-- An attempt takes no reservation away. -/
theorem mem_opened_tryReserve (he : l.tryReserve tenant limit b t acquiredAt = (l', ok))
    (hx : x ∈ l.opened) : x ∈ l'.opened := by
  rcases tryReserve_cases he with ⟨-, hopen, -⟩ | ⟨-, -, -, -, r, -, -, -, -, hopen⟩
  · exact hopen ▸ hx
  · exact hopen ▸ List.mem_cons_of_mem _ hx

theorem holds_of_tryReserve (he : l.tryReserve tenant limit b t acquiredAt = (l', true)) :
    l'.Holds b t := by
  rcases tryReserve_cases he with ⟨-, hopen, -, hown⟩ | ⟨-, -, -, -, r, -, hb, ht, -, hopen⟩
  · obtain ⟨r, hr, hb, ht⟩ := hown rfl
    exact ⟨r, hopen ▸ hr, hb, ht⟩
  · exact ⟨r, hopen ▸ List.mem_cons_self, hb, ht⟩

/-- What an attempt adds belongs to who made it. -/
theorem mem_opened_of_tryReserve (he : l.tryReserve tenant limit b t acquiredAt = (l', ok))
    (hx : x ∈ l'.opened) : x ∈ l.opened ∨ x.owner = t := by
  rcases tryReserve_cases he with ⟨-, hopen, -⟩ | ⟨-, -, -, -, r, -, -, ht, -, hopen⟩
  · exact Or.inl (hopen ▸ hx)
  · rw [hopen] at hx
    rcases List.mem_cons.mp hx with rfl | hx
    · exact Or.inr ht
    · exact Or.inl hx

theorem opened_of_tryReserve_false
    (he : l.tryReserve tenant limit b t acquiredAt = (l', false)) : l'.opened = l.opened := by
  rcases tryReserve_cases he with ⟨-, hopen, -⟩ | ⟨hok, -⟩
  · exact hopen
  · cases hok

theorem not_reserved_of_tryReserve (he : l.tryReserve tenant limit b t acquiredAt = (l', true))
    (hn : ¬l.Holds b t) : ¬l.Reserved b := by
  rcases tryReserve_cases he with ⟨-, -, -, hown⟩ | ⟨-, hnone, -⟩
  · exact (hn (hown rfl)).elim
  · exact hnone

end tryReserve

theorem hasOther_of_reserved (hr : l.Reserved b) (hn : ¬l.Holds b t) : l.hasOther b t = true := by
  unfold hasOther
  cases hf : l.find b with
  | none => exact (find_eq_none hf hr).elim
  | some r =>
    obtain ⟨hm, hb⟩ := find_eq_some hf
    exact decide_eq_true fun ht => hn ⟨r, hm, hb, ht⟩

theorem reserved_of_find (h : (l.find b).isSome) : l.Reserved b := by
  obtain ⟨r, hf⟩ := Option.isSome_iff_exists.mp h
  obtain ⟨hm, hb⟩ := find_eq_some hf
  exact ⟨r, hm, hb⟩

end Ledger

end Fakery.Capacity

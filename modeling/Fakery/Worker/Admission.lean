import Fakery.Worker.Calls

/-! Reservations, jobs and pods: which steps keep every execution and every pod reserved. -/
namespace Fakery.Worker
open Fakery.Bots Fakery.Capacity Fakery.Concurrent Fakery.Runtime

/-- `release_capacity` runs only when the bot has no job that may still start and no pod that
runs. What `sweep_capacity` releases belongs to a bot without an execution between its reservation
and its release, without such a job and without such a pod. -/
def kept (S : Settings) : (cluster S).Condition where
  call _ _ i s := match i with
    | .releaseCapacity b => ¬s.Pending b
    | .sweepCapacity moment => ∀ r ∈ s.ledger.opened, isSwept r moment (s.status r.botId) = true →
        (∀ x ∈ s.inside, x.2 ≠ r.botId) ∧ ¬s.Pending r.botId
    | _ => True

instance (S : Settings) (t : ℕ) (k : Role) (s : Cluster) : Decidable ((kept S).start t k s) :=
  isTrue trivial

instance (S : Settings) (t : ℕ) (k : Role) (i : Call) (s : Cluster) :
    Decidable ((kept S).call t k i s) := by
  cases i with
  | releaseCapacity b => exact inferInstanceAs (Decidable (¬s.Pending b))
  | sweepCapacity moment =>
    exact inferInstanceAs (Decidable (∀ r ∈ s.ledger.opened,
      isSwept r moment (s.status r.botId) = true →
        (∀ x ∈ s.inside, x.2 ≠ r.botId) ∧ ¬s.Pending r.botId))
  | _ => exact isTrue trivial

instance (S : Settings) (t : ℕ) (s : Cluster) : Decidable ((kept S).kill t s) := isTrue trivial

instance (S : Settings) (e : World) (s : Cluster) : Decidable ((kept S).env e s) := isTrue trivial

variable {S : Settings} {t u b : ℕ} {k : Role} {i : Call} {c : Outcome} {s s' v : Cluster}
  {xs : List (ℕ × ℕ)} {x : ℕ × ℕ} {α : Type}

/-- Steps that leave reservations, pods and attends alone. -/
structure Quiet (s s' : Cluster) : Prop where
  ledger : s'.ledger = s.ledger
  inside : s'.inside = s.inside
  attends : s'.attends = s.attends
  pods : s'.pods = s.pods
  job : s'.job = s.job

theorem Quiet.refl (s : Cluster) : Quiet s s := ⟨rfl, rfl, rfl, rfl, rfl⟩

theorem Quiet.trans {s₁ s₂ s₃ : Cluster} (h : Quiet s₁ s₂) (k : Quiet s₂ s₃) : Quiet s₁ s₃ :=
  ⟨k.ledger.trans h.ledger, k.inside.trans h.inside, k.attends.trans h.attends,
    k.pods.trans h.pods, k.job.trans h.job⟩

theorem Still.quiet (h : Still s s') : Quiet s s' := ⟨h.ledger, h.inside, h.attends, h.pods, h.job⟩

theorem effect_quiet {r : Answer i} (hi : i.Plain) (he : effect S t i c s = some (v, r)) :
    Quiet s v := by
  cases i with
  | handling =>
    obtain ⟨rfl, -⟩ := Prod.mk.inj (Option.some.inj he)
    exact ⟨rfl, rfl, rfl, rfl, rfl⟩
  | _ => exact (effect_still hi nofun he).quiet

theorem quiet_note (hi : i.Plain) (r : Answer i) (s : Cluster) : Quiet s (note t i r s) := by
  unfold note
  split
  · exact hi.elim
  · exact ⟨rfl, rfl, rfl, rfl, rfl⟩
  · exact ⟨rfl, rfl, rfl, rfl, rfl⟩
  · exact ⟨rfl, rfl, rfl, rfl, rfl⟩
  · exact ⟨rfl, rfl, rfl, rfl, rfl⟩
  · exact hi.elim
  · exact ⟨rfl, rfl, rfl, rfl, rfl⟩
  · exact .refl s

theorem quiet_raising (f : ℕ → Option (Raised × Bool)) (h : Quiet s v) :
    Quiet s { v with raising := f } := ⟨h.ledger, h.inside, h.attends, h.pods, h.job⟩

theorem exec_quiet {r : Answer i} (hi : i.Plain) (he : exec S t i c s = some (s', r)) :
    Quiet s s' := by
  obtain ⟨v, hc, rfl⟩ := exec_came he
  have hv : Quiet s v := hc.elim (P := Quiet s) (fun _ f h => quiet_raising f h) (.refl s)
    fun _ _ _ he => effect_quiet hi he
  exact hv.trans (quiet_note hi r v)

/-- The joining transition puts the bot on the list of those that attend. -/
theorem exec_attend {i : Runtime.Call} {r : Answer (.attend b i)}
    (he : exec S t (.attend b i) c s = some (s', r)) :
    Quiet s s' ∨ Quiet { s with attends := (t, b) :: s.attends } s' := by
  cases hj : i.joins with
  | false => exact Or.inl (exec_quiet (i := .attend b i) hj he)
  | true =>
    obtain ⟨v, hc, rfl⟩ := exec_came he
    refine hc.elim (P := fun v => Quiet s v ∨ Quiet { s with attends := (t, b) :: s.attends } v)
      (fun _ f h => h.imp (quiet_raising f) (quiet_raising f)) (Or.inl (.refl s)) ?_
    intro c v r he
    cases i with
    | transaction tx =>
      rcases transaction_cases (Option.some.inj he) with ⟨rfl, -⟩ | ⟨run, run', -, -, -, rfl⟩
      · exact Or.inl (.refl v)
      · have hjoins : tx.joins = true := hj
        rw [if_pos hjoins]
        exact Or.inr ⟨rfl, rfl, rfl, rfl, rfl⟩
    | _ => cases hj

/-- The bots of which `t` is in a list, the same before and after. -/
def Mine (t : ℕ) (xs ys : List (ℕ × ℕ)) : Prop := ∀ b, (t, b) ∈ ys ↔ (t, b) ∈ xs

theorem Mine.cons_of_ne (h : u ≠ t) (xs : List (ℕ × ℕ)) (b : ℕ) : Mine u xs ((t, b) :: xs) := by
  intro b'
  simp [h]

theorem Mine.drop_of_ne (h : u ≠ t) (xs : List (ℕ × ℕ)) : Mine u xs (drop t xs) := by
  intro b'
  simp [mem_drop, h]

structure Admitted (S : Settings) (s : Cluster) : Prop where
  balanced : s.ledger.Balanced S.maxConcurrentRuns
  inside : ∀ x ∈ s.inside, s.ledger.Holds x.2 x.1
  pending : ∀ b, s.Pending b → s.ledger.Reserved b
  attends : ∀ x ∈ s.attends, x ∈ s.inside ∨ x ∈ s.pods

structure Unmoved (t : ℕ) (s s' : Cluster) : Prop where
  inside : Mine t s.inside s'.inside
  attends : Mine t s.attends s'.attends
  pods : Mine t s.pods s'.pods

def admission (S : Settings) : Protocol (cluster S) where
  cond := kept S
  inv := Admitted S
  rely := Unmoved
  idle t s := ∀ b, (t, b) ∉ s.attends
  rely_refl _ _ := ⟨fun _ => Iff.rfl, fun _ => Iff.rfl, fun _ => Iff.rfl⟩
  rely_trans _ _ _ _ h k := ⟨fun b => (k.inside b).trans (h.inside b),
    fun b => (k.attends b).trans (h.attends b), fun b => (k.pods b).trans (h.pods b)⟩

theorem Quiet.unmoved (h : Quiet s s') : Unmoved t s s' :=
  ⟨fun _ => h.inside ▸ Iff.rfl, fun _ => h.attends ▸ Iff.rfl, fun _ => h.pods ▸ Iff.rfl⟩

theorem Quiet.pending (h : Quiet s s') : s'.Pending b ↔ s.Pending b := by
  unfold Cluster.Pending
  rw [h.job, h.pods]

theorem Admitted.of_quiet (hi : Admitted S s) (h : Quiet s s') : Admitted S s' :=
  ⟨h.ledger ▸ hi.balanced, by rw [h.ledger, h.inside]; exact hi.inside,
    fun b hb => h.ledger ▸ hi.pending b (h.pending.mp hb),
    by rw [h.attends, h.inside, h.pods]; exact hi.attends⟩

theorem Quiet.allowed (h : Quiet s s') (hi : Admitted S s) : (admission S).Allowed t s s' :=
  ⟨hi.of_quiet h, fun _ _ => h.unmoved, trivial⟩

theorem allowed_quiet {s₁ : Cluster} (h : (admission S).Allowed t s s₁) (hq : Quiet s₁ s') :
    (admission S).Allowed t s s' :=
  ⟨h.inv.of_quiet hq, fun u hu => (admission S).rely_trans u (h.others u hu) hq.unmoved, trivial⟩

section steps

variable {moment : ℕ} (hi : Admitted S s)
include hi

/-- More reservations do no harm. -/
theorem allowed_more {l : Ledger} (hb : l.Balanced S.maxConcurrentRuns)
    (hmem : ∀ r ∈ s.ledger.opened, r ∈ l.opened) :
    (admission S).Allowed t s { s with ledger := l } := by
  refine ⟨⟨hb, fun x hx => ?_, fun b hp => ?_, hi.attends⟩, fun u _ => ?_, trivial⟩
  · obtain ⟨r, hr, hbot, hown⟩ := hi.inside x hx
    exact ⟨r, hmem r hr, hbot, hown⟩
  · obtain ⟨r, hr, hbot⟩ := hi.pending b hp
    exact ⟨r, hmem r hr, hbot⟩
  · exact ⟨fun _ => Iff.rfl, fun _ => Iff.rfl, fun _ => Iff.rfl⟩

theorem allowed_enter (hh : s.ledger.Holds b t) :
    (admission S).Allowed t s { s with inside := (t, b) :: s.inside } := by
  refine ⟨⟨hi.balanced, fun x hx => ?_, hi.pending, fun x hx => ?_⟩, fun u hu => ?_, trivial⟩
  · rcases List.mem_cons.mp hx with rfl | hx
    · exact hh
    · exact hi.inside x hx
  · exact (hi.attends x hx).imp (List.mem_cons_of_mem _) id
  · exact ⟨Mine.cons_of_ne hu _ b, fun _ => Iff.rfl, fun _ => Iff.rfl⟩

/-- The joining transition of a thread that holds a reservation or is a pod. -/
theorem allowed_join (hm : (t, b) ∈ s.inside ∨ (t, b) ∈ s.pods) :
    (admission S).Allowed t s { s with attends := (t, b) :: s.attends } := by
  refine ⟨⟨hi.balanced, hi.inside, hi.pending, fun x hx => ?_⟩, fun u hu => ?_, trivial⟩
  · rcases List.mem_cons.mp hx with rfl | hx
    · exact hm
    · exact hi.attends x hx
  · exact ⟨fun _ => Iff.rfl, Mine.cons_of_ne hu _ b, fun _ => Iff.rfl⟩

theorem allowed_end : (admission S).Allowed t s { s with attends := drop t s.attends } := by
  refine ⟨⟨hi.balanced, hi.inside, hi.pending, fun x hx => ?_⟩, fun u hu => ?_, trivial⟩
  · exact hi.attends x (mem_drop.mp hx).1
  · exact ⟨fun _ => Iff.rfl, Mine.drop_of_ne hu _, fun _ => Iff.rfl⟩

/-- A thread that attends nowhere leaves. -/
theorem allowed_leave (hn : ∀ b, (t, b) ∉ s.attends) :
    (admission S).Allowed t s { s with inside := drop t s.inside } := by
  refine ⟨⟨hi.balanced, fun x hx => hi.inside x (mem_drop.mp hx).1, hi.pending, fun x hx => ?_⟩,
    fun u hu => ?_, trivial⟩
  · have hne : x.1 ≠ t := by
      rintro rfl
      exact hn x.2 hx
    exact (hi.attends x hx).imp (fun h => mem_drop.mpr ⟨h, hne⟩) id
  · exact ⟨Mine.drop_of_ne hu _, fun _ => Iff.rfl, fun _ => Iff.rfl⟩

/-- Only the reservation of `t` itself is released: no other execution of the bot holds one. -/
theorem allowed_release (hin : (t, b) ∈ s.inside) (hn : ∀ b, (t, b) ∉ s.attends)
    (hp : ¬s.Pending b) : (admission S).Allowed t s
      { s with ledger := s.ledger.release b moment, inside := drop t s.inside } := by
  refine ⟨⟨hi.balanced.release, fun x hx => ?_, fun b' hb' => ?_,
    (allowed_leave hi hn).inv.attends⟩, fun u hu => ?_, trivial⟩
  · obtain ⟨hx, hne⟩ := mem_drop.mp hx
    obtain ⟨r, hr, hbot, hown⟩ := hi.inside x hx
    refine ⟨r, (Ledger.mem_opened_release hi.balanced).mpr ⟨hr, fun hb => hne ?_⟩, hbot, hown⟩
    exact hi.balanced.eq_of_holds ⟨r, hr, hb, hown⟩ (hi.inside (t, b) hin)
  · obtain ⟨r, hr, hbot⟩ := hi.pending b' hb'
    refine ⟨r, (Ledger.mem_opened_release hi.balanced).mpr ⟨hr, ?_⟩, hbot⟩
    rintro rfl
    exact hp (hbot ▸ hb')
  · exact ⟨Mine.drop_of_ne hu _, fun _ => Iff.rfl, fun _ => Iff.rfl⟩

theorem allowed_sweep (hc : (kept S).call t k (.sweepCapacity moment) s) :
    (admission S).Allowed t s { s with ledger := s.ledger.sweep s.status moment } := by
  have hmem : ∀ r ∈ s.ledger.opened,
      (r.botId ∈ s.inside.map Prod.snd ∨ s.Pending r.botId) →
        r ∈ (s.ledger.sweep s.status moment).opened := by
    intro r hr hneed
    refine (Ledger.mem_opened_sweep hi.balanced).mpr ⟨hr, (Bool.not_eq_true _).mp fun hs => ?_⟩
    obtain ⟨hinside, hpending⟩ := hc r hr hs
    rcases hneed with hm | hp
    · obtain ⟨x, hx, hxb⟩ := List.mem_map.mp hm
      exact hinside x hx hxb
    · exact hpending hp
  refine ⟨⟨hi.balanced.sweep, fun x hx => ?_, fun b hb => ?_, hi.attends⟩, fun u _ => ?_, trivial⟩
  · obtain ⟨r, hr, hbot, hown⟩ := hi.inside x hx
    exact ⟨r, hmem r hr (Or.inl (hbot ▸ List.mem_map_of_mem hx)), hbot, hown⟩
  · obtain ⟨r, hr, hbot⟩ := hi.pending b hb
    exact ⟨r, hmem r hr (Or.inr (hbot ▸ hb)), hbot⟩
  · exact ⟨fun _ => Iff.rfl, fun _ => Iff.rfl, fun _ => Iff.rfl⟩

/-- Fewer jobs that may start, and the pods of `t` gone if it attends nowhere. -/
theorem allowed_jobs {job : ℕ → Option JobStatus} {pods : List (ℕ × ℕ)}
    (hjob : ∀ b, job b = some .waiting → s.Pending b ∨ s.ledger.Reserved b)
    (hpods : pods = s.pods ∨ pods = drop t s.pods ∧ ∀ b, (t, b) ∉ s.attends) :
    (admission S).Allowed t s { s with job := job, pods := pods } := by
  have hsub : ∀ x ∈ pods, x ∈ s.pods := by
    rcases hpods with rfl | ⟨rfl, -⟩
    · exact fun _ => id
    · exact fun _ hx => (mem_drop.mp hx).1
  refine ⟨⟨hi.balanced, hi.inside, fun b hb => ?_, fun x hx => ?_⟩, fun u hu => ?_, trivial⟩
  · rcases hb with hb | ⟨x, hx, hxb⟩
    · exact (hjob b hb).elim (hi.pending b) id
    · exact hi.pending b (Or.inr ⟨x, hsub x hx, hxb⟩)
  · rcases hpods with rfl | ⟨rfl, hn⟩
    · exact hi.attends x hx
    · have hne : x.1 ≠ t := by
        rintro rfl
        exact hn x.2 hx
      exact (hi.attends x hx).imp id fun h => mem_drop.mpr ⟨h, hne⟩
  · rcases hpods with rfl | ⟨rfl, -⟩
    · exact ⟨fun _ => Iff.rfl, fun _ => Iff.rfl, fun _ => Iff.rfl⟩
    · exact ⟨fun _ => Iff.rfl, fun _ => Iff.rfl, Mine.drop_of_ne hu _⟩

end steps

end Fakery.Worker

import Fakery.Concurrent.RelyGuarantee
import Fakery.Redis.Keys
import Mathlib.Tactic.SplitIfs

/-! The lease of the signed profile. -/
namespace Fakery.Profiles
open Fakery.Concurrent Fakery.Redis

def LEASE_TTL_S : ℕ := 3600

def PLATFORM_MEET : String := "meet"

inductive Tier where
  | signed | guest
deriving DecidableEq

def Tier.value : Tier → String
  | signed => "signed"
  | guest => "guest"

def leaseKey (tenant platform tier : String) : String :=
  s!"profiles:lease:{tenant}:{platform}:{tier}"

/-- The settings of a worker. -/
structure Worker where
  tenant : String
  tier : Tier
  hasRedis : Bool

inductive Call where
  | uuid4
  | acquireLease (name : String) (owner : ℕ)
  | launchRuntime
  | spawn
  | getLease (name : String)
  | deleteLease (name : String)

/-- What a call answers when it does not raise. -/
abbrev Reply : Call → Type
  | .uuid4 => ℕ
  | .acquireLease _ _ => Bool
  | .getLease _ => Option ℕ
  | .launchRuntime | .spawn | .deleteLease _ => Unit

abbrev Answer (i : Call) : Type := Except Unit (Reply i)

abbrev Act := Task Call Answer Unit

def perform (i : Call) : Act (Reply i) := ExceptT.mk (Prog.ask i)

def releaseLease (name : String) (owner : ℕ) : Act Unit := do
  if (← perform (.getLease name)) = some owner then perform (.deleteLease name)
  else pure ()

/-- `execute_run` once the capacity is reserved. A run that finds the profile busy is failed. The
spawn lasts as long as it does: no setting bounds the wait for admission, the meeting and what
follows it together. -/
def executeRun (w : Worker) : Act Unit := do
  let runOwner ← perform .uuid4
  let lease := leaseKey w.tenant PLATFORM_MEET w.tier.value
  if w.hasRedis && w.tier = .signed then
    if ← perform (.acquireLease lease runOwner) then do
      perform .launchRuntime
      (perform .spawn).ensuring ((releaseLease lease runOwner).except fun _ => pure ())
    else pure ()
  else do
    perform .launchRuntime
    perform .spawn

/-- `inside` lists the runs between a successful `acquire_lease` and the end of their spawn,
`deleting` those that have read their own lease and are to delete it. -/
structure Store where
  keys : Keys String ℕ
  inside : List (ℕ × String) := []
  deleting : List (ℕ × String) := []

def drop (t : ℕ) (xs : List (ℕ × String)) : List (ℕ × String) := xs.filter fun x => x.1 ≠ t

def Store.leave (s : Store) (t : ℕ) : Store := { s with inside := drop t s.inside }

/-- A command that raises may have reached the server. -/
inductive Outcome where
  | answered | lost | refused
deriving DecidableEq

/-- Every execution draws an owner of its own. -/
def exec (t : ℕ) : (i : Call) → Outcome → Store → Option (Store × Answer i)
  | .uuid4, _, s => some (s, .ok t)
  | .acquireLease name owner, c, s =>
    let r := s.keys.setNx name owner LEASE_TTL_S
    match c with
    | .answered =>
      if r.2 then some ({ s with keys := r.1, inside := (t, name) :: s.inside }, .ok true)
      else some (s, .ok false)
    | .lost => some ({ s with keys := r.1 }, .error ())
    | .refused => some (s, .error ())
  | .launchRuntime, c, s =>
    if c = .answered then some (s, .ok ()) else some (s.leave t, .error ())
  | .spawn, c, s =>
    if c = .answered then some (s.leave t, .ok ()) else some (s.leave t, .error ())
  | .getLease name, c, s =>
    if c = .answered then
      some (if s.keys.get name = some t then { s with deleting := (t, name) :: s.deleting } else s,
        .ok (s.keys.get name))
    else some (s, .error ())
  | .deleteLease name, c, s =>
    let s' := { s with deleting := drop t s.deleting }
    match c with
    | .answered => some ({ s' with keys := s.keys.delete name }, .ok ())
    | .lost => some ({ s' with keys := s.keys.delete name }, .error ())
    | .refused => some (s', .error ())

/-- A worker that dies ends the spawn and leaves the key. The environment lets time pass. -/
def leases : Machine Call Answer Worker Store Outcome ℕ where
  prog w := (executeRun w).run >>= fun _ => .done ()
  begin _ _ s := some s
  exec := exec
  kill t s := { s.leave t with deleting := drop t s.deleting }
  env d s := some { s with keys := s.keys.elapse d }

/-- No lease expires while its owner is inside, nor between the GET and the DELETE of its
release. -/
def leaseKept : leases.Condition where
  env d s := ∀ x ∈ s.inside ++ s.deleting, (s.keys.get x.2).isSome →
    ((s.keys.elapse d).get x.2).isSome

instance (t : ℕ) (w : Worker) (s : Store) : Decidable (leaseKept.start t w s) := isTrue trivial

instance (t : ℕ) (w : Worker) (i : Call) (s : Store) : Decidable (leaseKept.call t w i s) :=
  isTrue trivial

instance (t : ℕ) (s : Store) : Decidable (leaseKept.kill t s) := isTrue trivial

instance (d : ℕ) (s : Store) : Decidable (leaseKept.env d s) :=
  inferInstanceAs (Decidable (∀ x ∈ s.inside ++ s.deleting, (s.keys.get x.2).isSome →
    ((s.keys.elapse d).get x.2).isSome))

def exclusive : Protocol leases where
  cond := leaseKept
  inv s := ∀ x ∈ s.inside ++ s.deleting, s.keys.get x.2 = some x.1
  rely t s s' := ∀ name, ((t, name) ∈ s'.inside ↔ (t, name) ∈ s.inside) ∧
    ((t, name) ∈ s'.deleting ↔ (t, name) ∈ s.deleting)
  idle t s := ∀ name, (t, name) ∉ s.inside
  rely_refl _ _ _ := ⟨Iff.rfl, Iff.rfl⟩
  rely_trans _ _ _ _ h k name := ⟨(k name).1.trans (h name).1, (k name).2.trans (h name).2⟩

variable {t u : ℕ} {w : Worker} {i : Call} {c : Outcome} {s s' : Store} {name : String}
  {xs : List (ℕ × String)} {α β : Type}

theorem mem_drop {x : ℕ × String} : x ∈ drop t xs ↔ x ∈ xs ∧ x.1 ≠ t := by
  simp [drop]

/-- `t` is not inside. -/
def Out (t : ℕ) (s : Store) : Prop := ∀ name, (t, name) ∉ s.inside

theorem Out.rely (hr : exclusive.rely t s s') (h : Out t s) : Out t s' :=
  fun name hm => h name ((hr name).1.mp hm)

theorem out_leave (s : Store) (t : ℕ) : Out t (s.leave t) := fun _ hm => (mem_drop.mp hm).2 rfl

theorem allowed_refl (hi : exclusive.inv s) : exclusive.Allowed t s s :=
  ⟨hi, fun _ _ _ => ⟨Iff.rfl, Iff.rfl⟩, trivial⟩

/-- Taking `t` off the lists. -/
theorem allowed_drop (hi : exclusive.inv s) (hkeys : s'.keys = s.keys)
    (hinside : s'.inside = s.inside ∨ s'.inside = drop t s.inside)
    (hdeleting : s'.deleting = s.deleting ∨ s'.deleting = drop t s.deleting) :
    exclusive.Allowed t s s' := by
  have hsub : ∀ x ∈ s'.inside ++ s'.deleting, x ∈ s.inside ++ s.deleting := by
    intro x hx
    rcases List.mem_append.mp hx with hx | hx
    · refine List.mem_append_left _ ?_
      rcases hinside with h | h
      · exact h ▸ hx
      · exact (mem_drop.mp (h ▸ hx)).1
    · refine List.mem_append_right _ ?_
      rcases hdeleting with h | h
      · exact h ▸ hx
      · exact (mem_drop.mp (h ▸ hx)).1
  refine ⟨fun x hx => hkeys ▸ hi x (hsub x hx), fun u hu name => ⟨?_, ?_⟩, trivial⟩
  · rcases hinside with h | h
    · rw [h]
    · rw [h, mem_drop]
      simp [hu]
  · rcases hdeleting with h | h
    · rw [h]
    · rw [h, mem_drop]
      simp [hu]

theorem allowed_acquire {r : Except Unit Bool} (hi : exclusive.inv s)
    (he : exec t (.acquireLease name t) c s = some (s', r)) : exclusive.Allowed t s s' := by
  cases c with
  | refused =>
    obtain ⟨rfl, -⟩ := Prod.mk.inj (Option.some.inj he)
    exact allowed_refl hi
  | lost =>
    obtain ⟨rfl, -⟩ := Prod.mk.inj (Option.some.inj he)
    exact ⟨fun x hx => Keys.get_setNx_of_get (hi x hx), fun _ _ _ => ⟨Iff.rfl, Iff.rfl⟩, trivial⟩
  | answered =>
    simp only [exec] at he
    split_ifs at he with hr
    · obtain ⟨rfl, -⟩ := Prod.mk.inj (Option.some.inj he)
      have hset := Keys.setNx_of_true hr
      refine ⟨fun x hx => ?_, fun u hu name' => ⟨by simp [hu], Iff.rfl⟩, trivial⟩
      rcases List.mem_cons.mp hx with rfl | hx
      · rw [hset]
        exact Keys.get_set_self (by decide)
      · exact Keys.get_setNx_of_get (hi x hx)
    · obtain ⟨rfl, -⟩ := Prod.mk.inj (Option.some.inj he)
      exact allowed_refl hi

theorem allowed_getLease {r : Except Unit (Option ℕ)} (hi : exclusive.inv s)
    (he : exec t (.getLease name) c s = some (s', r)) :
    exclusive.Allowed t s s' ∧ s'.inside = s.inside ∧
      (r = .ok (some t) → (t, name) ∈ s'.deleting) := by
  simp only [exec] at he
  split_ifs at he with hc hown
  · obtain ⟨rfl, rfl⟩ := Prod.mk.inj (Option.some.inj he)
    refine ⟨⟨fun x hx => ?_, fun u hu name' => ⟨Iff.rfl, by simp [hu]⟩, trivial⟩, rfl, fun _ =>
      List.mem_cons_self⟩
    rcases List.mem_append.mp hx with hx | hx
    · exact hi x (List.mem_append_left _ hx)
    · rcases List.mem_cons.mp hx with rfl | hx
      · exact hown
      · exact hi x (List.mem_append_right _ hx)
  · obtain ⟨rfl, rfl⟩ := Prod.mk.inj (Option.some.inj he)
    refine ⟨allowed_refl hi, rfl, fun h => ?_⟩
    exact absurd (Except.ok.inj h) hown
  · obtain ⟨rfl, rfl⟩ := Prod.mk.inj (Option.some.inj he)
    exact ⟨allowed_refl hi, rfl, nofun⟩

/-- The lease that `t` deletes is its own, and `t` is out. -/
theorem allowed_deleteLease {r : Except Unit Unit} (hi : exclusive.inv s) (hout : Out t s)
    (hd : (t, name) ∈ s.deleting) (he : exec t (.deleteLease name) c s = some (s', r)) :
    exclusive.Allowed t s s' := by
  have hown : s.keys.get name = some t := hi (t, name) (List.mem_append_right _ hd)
  have hgone : exclusive.Allowed t s
      { s with deleting := drop t s.deleting, keys := s.keys.delete name } := by
    refine ⟨fun x hx => ?_, fun u hu name' => ⟨Iff.rfl, by simp [mem_drop, hu]⟩, trivial⟩
    have hx' : x ∈ s.inside ++ s.deleting ∧ x.1 ≠ t := by
      rcases List.mem_append.mp hx with hx | hx
      · refine ⟨List.mem_append_left _ hx, ?_⟩
        rintro rfl
        exact hout x.2 hx
      · exact ⟨List.mem_append_right _ (mem_drop.mp hx).1, (mem_drop.mp hx).2⟩
    have hne : x.2 ≠ name := by
      rintro rfl
      exact hx'.2 (Option.some.inj ((hi x hx'.1).symm.trans hown))
    exact (Keys.get_delete_of_ne hne).trans (hi x hx'.1)
  cases c with
  | answered =>
    obtain ⟨rfl, -⟩ := Prod.mk.inj (Option.some.inj he)
    exact hgone
  | lost =>
    obtain ⟨rfl, -⟩ := Prod.mk.inj (Option.some.inj he)
    exact hgone
  | refused =>
    obtain ⟨rfl, -⟩ := Prod.mk.inj (Option.some.inj he)
    exact allowed_drop hi rfl (Or.inl rfl) (Or.inr rfl)

theorem wp_perform {Q : Except Unit (Reply i) → Store → Prop} :
    exclusive.wp t w (perform i).run Q s ↔ ∀ s₁, exclusive.rely t s s₁ → exclusive.inv s₁ →
      leaseKept.call t w i s₁ → ∀ c s₂ r, exec t i c s₁ = some (s₂, r) →
        exclusive.Allowed t s₁ s₂ ∧ Q r s₂ := Iff.rfl

theorem wp_launchRuntime {Q : Except Unit Unit → Store → Prop} (hQ : ∀ r s, Q r s) :
    exclusive.wp t w (perform .launchRuntime).run Q s := by
  refine wp_perform.mpr fun s₁ _ hi _ c s₂ r he => ⟨?_, hQ r s₂⟩
  simp only [exec] at he
  split_ifs at he
  · obtain ⟨rfl, -⟩ := Prod.mk.inj (Option.some.inj he)
    exact allowed_refl hi
  · obtain ⟨rfl, -⟩ := Prod.mk.inj (Option.some.inj he)
    exact allowed_drop hi rfl (Or.inr rfl) (Or.inl rfl)

theorem wp_spawn : exclusive.wp t w (perform .spawn).run (fun _ => Out t) s := by
  refine wp_perform.mpr fun s₁ _ hi _ c s₂ r he => ?_
  have hs : s₂ = s₁.leave t := by
    simp only [exec] at he
    split_ifs at he
    · exact (Prod.mk.inj (Option.some.inj he)).1.symm
    · exact (Prod.mk.inj (Option.some.inj he)).1.symm
  subst hs
  exact ⟨allowed_drop hi rfl (Or.inr rfl) (Or.inl rfl), out_leave s₁ t⟩

theorem wp_releaseLease (hs : Out t s) :
    exclusive.wp t w (releaseLease name t).run (fun _ _ => True) s := by
  refine Protocol.wp_task_bind.mpr (wp_perform.mpr fun s₁ hr hi _ c s₂ r he => ?_)
  obtain ⟨ha, hinside, hdeleting⟩ := allowed_getLease hi he
  have hout : Out t s₂ := by
    intro name' hm
    exact hs.rely hr name' (hinside ▸ hm)
  refine ⟨ha, ?_⟩
  cases r with
  | error e => trivial
  | ok owner =>
    show exclusive.wp t w (if owner = some t then perform (.deleteLease name) else pure ()).run _ s₂
    split_ifs with hown
    · refine wp_perform.mpr fun s₃ hr₃ hi₃ _ c₃ s₄ r₃ he₃ => ⟨?_, trivial⟩
      have hd := (hr₃ name).2.mpr (hdeleting (congrArg Except.ok hown))
      exact allowed_deleteLease hi₃ (hout.rely hr₃) hd he₃
    · trivial

theorem wp_executeRun : exclusive.wp t w (executeRun w).run (fun _ _ => True) s := by
  refine Protocol.wp_task_bind.mpr (wp_perform.mpr fun s₁ _ hi _ c s₂ r he => ?_)
  obtain ⟨rfl, rfl⟩ := Prod.mk.inj (Option.some.inj he)
  refine ⟨allowed_refl hi, ?_⟩
  have hunleased : ∀ s, exclusive.wp t w
      (do perform .launchRuntime; perform .spawn : Act Unit).run (fun _ _ => True) s := by
    intro s
    refine Protocol.wp_task_bind.mpr (wp_launchRuntime fun r s => ?_)
    cases r with
    | error e => trivial
    | ok _ => exact Protocol.wp_mono wp_spawn fun _ _ _ => trivial
  show exclusive.wp t w (if (w.hasRedis && w.tier = .signed) = true then _ else _ : Act Unit).run
    _ s₁
  split_ifs
  · refine Protocol.wp_task_bind.mpr (wp_perform.mpr fun s₃ _ hi₃ _ c₃ s₄ r₃ he₃ => ?_)
    refine ⟨allowed_acquire hi₃ he₃, ?_⟩
    cases r₃ with
    | error e => trivial
    | ok acquired =>
      cases acquired with
      | false => trivial
      | true =>
        refine Protocol.wp_task_bind.mpr (wp_launchRuntime fun r s => ?_)
        cases r with
        | error e => trivial
        | ok _ =>
          refine Protocol.wp_ensuring.mpr (Protocol.wp_mono wp_spawn fun r s hs => ?_)
          refine Protocol.wp_except.mpr (Protocol.wp_mono (wp_releaseLease hs) fun r' s' _ => ?_)
          cases r' <;> trivial
  · exact hunleased s₁

theorem exclusive_sound : exclusive.Sound where
  idle hr hs := Out.rely hr hs
  final _ _ := trivial
  start {t w s s'} hi _ _ hb := by
    cases Option.some.inj hb
    exact ⟨allowed_refl hi, Protocol.wp_bind.mpr (Protocol.wp_mono wp_executeRun fun _ _ _ => trivial)⟩
  kill hi _ := ⟨allowed_drop hi rfl (Or.inr rfl) (Or.inr rfl), trivial⟩
  env {d s s'} hi hc hb := by
    cases Option.some.inj hb
    refine ⟨fun x hx => ?_, fun _ _ => ⟨Iff.rfl, Iff.rfl⟩⟩
    have hkept := hc x hx (by rw [hi x hx]; rfl)
    exact (Keys.get_elapse_of_isSome hkept).trans (hi x hx)

/-- As long as no lease expires under its owner, one run at a time uses a profile. -/
theorem profile_used_once {es : List (Event Worker Outcome ℕ)} {keys : Keys String ℕ}
    {s : leases.State} (hc : leaseKept.Meets (leases.init { keys := keys }) es)
    (hr : leases.run (leases.init { keys := keys }) es = some s) {name : String} {t u : ℕ}
    (ht : (t, name) ∈ s.shared.inside) (hu : (u, name) ∈ s.shared.inside) : t = u := by
  have hinit : exclusive.Holds (leases.init { keys := keys }) :=
    Protocol.holds_init (by simp [exclusive]) fun t => by simp [exclusive]
  have hinv := (exclusive_sound.run hinit hc hr).inv
  have howner : s.shared.keys.get name = some t := hinv (t, name) (List.mem_append_left _ ht)
  exact Option.some.inj (howner.symm.trans (hinv (u, name) (List.mem_append_left _ hu)))

section runs

def signed : Worker := { tenant := "default", tier := .signed, hasRedis := true }

def meetLease : String := "profiles:lease:default:meet:signed"

/-- The first `n` calls of an execution, each answered. -/
def calls (t n : ℕ) : List (Event Worker Outcome ℕ) :=
  .start t signed :: List.replicate n (.step t .answered)

/-- Within an hour one run is over and has released the lease, and the next one takes it. -/
theorem profile_used_once_in_turn : ∃ s : leases.State,
    leases.run (leases.init { keys := {} }) (calls 0 3 ++ .env 3599 ::
      List.replicate 3 (.step 0 .answered) ++ calls 1 3) = some s ∧
      (1, meetLease) ∈ s.shared.inside ∧ ∀ t, (t, meetLease) ∈ s.shared.inside → t = 1 := by
  have hsome : ((leases.run (leases.init { keys := {} }) (calls 0 3 ++ .env 3599 ::
      List.replicate 3 (.step 0 .answered) ++ calls 1 3)).any fun s =>
        (1, meetLease) ∈ s.shared.inside) = true := by decide +kernel
  obtain ⟨s, hs, hin⟩ := (Option.any_eq_true _ _).mp hsome
  have hin := of_decide_eq_true hin
  exact ⟨s, hs, hin, fun t ht => profile_used_once (by decide +kernel) hs ht hin⟩

/-- The first run is in its meeting for an hour, and the second one acquires the lease. -/
theorem not_profile_used_once : ¬∀ (keys : Keys String ℕ) (es : List (Event Worker Outcome ℕ))
    (s : leases.State), leases.run (leases.init { keys := keys }) es = some s →
      ∀ name t u, (t, name) ∈ s.shared.inside → (u, name) ∈ s.shared.inside → t = u := by
  intro h
  have hsome : ((leases.run (leases.init { keys := {} })
      (calls 0 3 ++ .env LEASE_TTL_S :: calls 1 2)).any fun s =>
        (0, meetLease) ∈ s.shared.inside ∧ (1, meetLease) ∈ s.shared.inside) = true := by
    decide +kernel
  obtain ⟨s, hs, hin⟩ := (Option.any_eq_true _ _).mp hsome
  obtain ⟨h₀, h₁⟩ := of_decide_eq_true hin
  cases h {} _ s hs meetLease 0 1 h₀ h₁

end runs

end Fakery.Profiles

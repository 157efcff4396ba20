import Fakery.Worker.Attending
import Fakery.Worker.Rivals

/-! In the process runtime, what an execution does to another one of the same run that has made the run
joining: nothing, under the condition `undisturbed`. -/
namespace Fakery.Worker
open Fakery.Bots Fakery.Capacity Fakery.Concurrent Fakery.Runtime

variable {S : Settings} {t u b : ℕ} {k : Role} {i : Call} {c : Outcome} {s s' v : Cluster} {α : Type}
  {p : Plan}

def Lasting (t : ℕ) (A : Cluster → Prop) : Prop := ∀ {s s'}, Steady t s s' → A s → A s'

/-- An execution that attends nowhere. -/
def Outside (t b : ℕ) (s : Cluster) : Prop := Owns t b s ∧ NoAttend t s

def Unreserved (t b : ℕ) (s : Cluster) : Prop := Outside t b s ∧ ¬s.ledger.Holds b t

def Hosting (t b : ℕ) (s : Cluster) : Prop := Owns t b s ∧ (t, b) ∈ s.inside

def Lodged (t b : ℕ) (s : Cluster) : Prop := Hosting t b s ∧ NoAttend t s

def Joined (t b : ℕ) (s : Cluster) : Prop := Hosting t b s ∧ s.joinedBy b = some t

def Doomed (t b : ℕ) (s : Cluster) : Prop := Owns t b s ∧ t ∈ s.failing

/-- A thread without a claim. -/
def Apart (t : ℕ) (s : Cluster) : Prop := ∀ c ∈ s.claims, c.thread ≠ t

theorem lasting_owns : Lasting t (Owns t b) :=
  fun hu h c hc hct => h c ((hu.claims c hct).mp hc) hct

theorem lasting_noAttend : Lasting t (NoAttend t) :=
  fun hu h b hm => h b ((hu.attends b).mp hm)

theorem lasting_outside : Lasting t (Outside t b) :=
  fun hu h => ⟨lasting_owns hu h.1, lasting_noAttend hu h.2⟩

theorem lasting_unreserved : Lasting t (Unreserved t b) :=
  fun hu h => ⟨lasting_outside hu h.1, fun hh => h.2 (hu.holds b hh)⟩

theorem lasting_hosting : Lasting t (Hosting t b) :=
  fun hu h => ⟨lasting_owns hu h.1, (hu.inside b).mpr h.2⟩

theorem lasting_lodged : Lasting t (Lodged t b) :=
  fun hu h => ⟨lasting_hosting hu h.1, lasting_noAttend hu h.2⟩

theorem lasting_joined : Lasting t (Joined t b) :=
  fun hu h => ⟨lasting_hosting hu h.1, hu.joined b h.2⟩

theorem lasting_doomed : Lasting t (Doomed t b) :=
  fun hu h => ⟨lasting_owns hu h.1, hu.failing.mpr h.2⟩

theorem lasting_apart : Lasting t (Apart t) :=
  fun hu h c hc hct => h c ((hu.claims c hct).mp hc) hct

section frames

variable {A : Cluster → Prop} {U : Call → Prop} {q : Prog Call Answer α}

theorem wp_still (hA : Lasting t A) (hU : ∀ i, U i → i.Unnoted)
    (hharm : ∀ {i c s s' r}, U i → Undivided S s → A s → exec S t i c s = some (s', r) →
      Harmless t s s') (hq : q.Uses U) (hs : A s) : (rivalry S).wp t k q (fun _ => A) s := by
  refine Protocol.wp_frame hq hs (fun _ _ hu _ => hA hu) fun i c s s' r hi hinv _ h he => ?_
  have hstill := exec_still (hU i hi) he
  exact ⟨allowed_still hinv hstill (exec_onward he) (hharm hi hinv h he), hA hstill.steady h⟩

theorem harmless_looks {r : Answer i} (h : i.Looks) (he : exec S t i c s = some (s', r)) :
    Harmless t s s' := by
  obtain ⟨f, rfl⟩ := exec_looks h he
  exact harmless_of_eq rfl (fun _ => id) rfl rfl

theorem wp_looking (hA : Lasting t A) (hq : q.Uses Call.Looks) (hs : A s) :
    (rivalry S).wp t k q (fun _ => A) s :=
  wp_still hA (fun _ => unnoted_of_looks) (fun hi _ _ he => harmless_looks hi he) hq hs

theorem wp_apart (hq : q.Uses Call.Unnoted) (hs : Apart t s) :
    (rivalry S).wp t k q (fun _ => Apart t) s :=
  wp_still lasting_apart (fun _ => id) (fun _ _ h _ c hc hct => (h c hc hct).elim) hq hs

theorem settled_of_runs (h : s'.runs = s.runs) : Settled s s' :=
  fun _ run hrun _ => ⟨run, h ▸ hrun, rfl, rfl, rfl⟩

/-- The calls of an execution that holds a reservation and has not made the run joining. -/
def Call.Lodging : Call → Prop
  | .attend _ (.transaction tx) => tx.settles = true
  | .attend _ _ | .prepareLaunch _ | .releaseLease | .launchRuntime => True
  | _ => False

theorem unnoted_of_lodging (h : i.Lodging) : i.Unnoted := by
  unfold Call.Lodging at h
  split at h
  · exact joins_of_settles (i := .transaction _) h
  · rename_i j hne
    show j.joins = false
    cases j with
    | transaction tx => exact (hne tx rfl).elim
    | _ => rfl
  · trivial
  · trivial
  · trivial
  · exact h.elim

theorem effect_settled {r : Answer i} (h : i.Lodging) (he : effect S t i c s = some (v, r)) :
    Settled s v := by
  cases i with
  | attend b i =>
    cases i with
    | transaction tx =>
      have hsettles : tx.settles = true := h
      rcases transaction_cases (Option.some.inj he) with ⟨rfl, -⟩ | ⟨run, run', hrun, happly, -, rfl⟩
      · exact settled_of_runs rfl
      · have hjoins : tx.joins = false := joins_of_settles (i := .transaction tx) hsettles
        rw [hjoins, if_neg Bool.false_ne_true]
        intro b' old hold hterminal
        by_cases hb : b' = b
        · subst hb
          obtain rfl := Option.some.inj (hrun.symm.trans hold)
          have hsame := sameOutcome_settles hsettles hterminal happly
          exact ⟨_, Function.update_self _ _ _, hsame.flushed⟩
        · exact ⟨old, (Function.update_of_ne hb _ _).trans hold, rfl, rfl, rfl⟩
    | getRun =>
      obtain rfl := effect_looks (i := .attend b .getRun) trivial he
      exact settled_of_runs rfl
    | persistProfile =>
      obtain ⟨rfl, -⟩ := Prod.mk.inj (Option.some.inj he)
      split
      · exact settled_of_runs rfl
      · exact settled_of_runs rfl
    | _ =>
      obtain ⟨rfl, -⟩ := Prod.mk.inj (Option.some.inj he)
      exact settled_of_runs rfl
  | prepareLaunch b =>
    obtain ⟨rfl, -⟩ := Prod.mk.inj (Option.some.inj he)
    split
    · exact settled_of_runs rfl
    · exact settled_of_runs rfl
  | releaseLease | launchRuntime =>
    obtain ⟨rfl, -⟩ := Prod.mk.inj (Option.some.inj he)
    exact settled_of_runs rfl
  | _ => exact h.elim

theorem exec_settled {r : Answer i} (h : i.Lodging) (he : exec S t i c s = some (s', r)) :
    Settled s s' := by
  obtain ⟨v, hc, rfl⟩ := exec_came he
  rw [note_unnoted (unnoted_of_lodging h)]
  exact hc.elim (P := Settled s) (fun _ _ h => h) (settled_of_runs rfl) fun _ _ _ he =>
    effect_settled h he

theorem wp_lodging (hq : q.Uses Call.Lodging) (hs : Lodged t b s) :
    (rivalry S).wp t k q (fun _ => Lodged t b) s :=
  wp_still lasting_lodged (fun _ => unnoted_of_lodging)
    (fun hi hinv h he => harmless_in hinv h.1.1 h.1.2 (exec_settled hi he)) hq hs

theorem wp_hosting (hq : q.Uses Call.Lodging) (hs : Hosting t b s) :
    (rivalry S).wp t k q (fun _ => Hosting t b) s :=
  wp_still lasting_hosting (fun _ => unnoted_of_lodging)
    (fun hi hinv h he => harmless_in hinv h.1 h.2 (exec_settled hi he)) hq hs

/-- After the joining transition the run is the execution's own. -/
theorem wp_joined (hq : q.Uses fun i => ∃ j, i = .attend b j ∧ j.joins = false)
    (hs : Joined t b s) : (rivalry S).wp t k q (fun _ => Joined t b) s := by
  refine wp_still lasting_joined ?_ (fun _ _ h _ => harmless_joined h.1.1 h.2) hq hs
  rintro _ ⟨j, rfl, hj⟩
  exact hj

theorem exec_keys {j : Runtime.Call} {r : Answer (.attend b j)} (hj : j.settles = true)
    (he : exec S t (.attend b j) c s = some (s', r)) :
    s'.beatKey = s.beatKey ∧ s'.directory = s.directory := by
  obtain ⟨v, hc, rfl⟩ := exec_came he
  refine hc.elim (P := fun v => v.beatKey = s.beatKey ∧ v.directory = s.directory) (fun _ _ h => h)
    ⟨rfl, rfl⟩ fun c v r he => ?_
  match j with
  | .getRun =>
    obtain rfl := effect_looks (i := .attend b .getRun) trivial he
    exact ⟨rfl, rfl⟩
  | .restorePrefix =>
    obtain ⟨rfl, -⟩ := Prod.mk.inj (Option.some.inj he)
    exact ⟨rfl, rfl⟩
  | .transaction tx =>
    rcases transaction_cases (Option.some.inj he) with ⟨rfl, -⟩ | ⟨run, run', -, -, -, rfl⟩
    · exact ⟨rfl, rfl⟩
    · split
      · exact ⟨rfl, rfl⟩
      · exact ⟨rfl, rfl⟩

theorem wp_doomed (hq : q.Uses fun i => ∃ j, i = .attend b j ∧ j.settles = true)
    (hs : Doomed t b s) : (rivalry S).wp t k q (fun _ => Doomed t b) s := by
  refine wp_still lasting_doomed ?_ ?_ hq hs
  · rintro _ ⟨j, rfl, hj⟩
    exact joins_of_settles hj
  · rintro _ c s s' r ⟨j, rfl, hj⟩ hinv h he
    have hlodging : (Call.attend b j).Lodging := by
      match j with
      | .getRun | .restorePrefix => trivial
      | .transaction tx => exact hj
    obtain ⟨hb, hd⟩ := exec_keys hj he
    have hstill := exec_still (i := .attend b j) (joins_of_settles hj) he
    exact harmless_failing hinv h.2 (exec_settled hlodging he) hstill.ledger hb hd

end frames

section calls

variable {r : Answer i}

theorem allowed_raising (f : ℕ → Option (Raised × Bool)) (h : (rivalry S).Allowed t s v) :
    (rivalry S).Allowed t s { v with raising := f } :=
  ⟨h.inv.of_still (still_raising f (.refl v)) (onward_of_runs (E := fun _ => False) rfl),
    fun u hu => (rivalry S).rely_trans u (h.others u hu) (still_raising f (.refl v)).steady,
    fun c hc hct w hw hne =>
      have hs := h.effect c hc hct w hw hne
      ⟨hs.run, hs.reservation, hs.keys⟩⟩

theorem allowed_refl (hi : Undivided S s) : (rivalry S).Allowed t s s :=
  allowed_still hi (.refl s) (Onward.refl (E := fun _ => False) s)
    (harmless_of_eq rfl (fun _ => id) rfl rfl)

theorem allowed_trans {s₁ : Cluster} (h : (rivalry S).Allowed t s s₁)
    (k : (rivalry S).Allowed t s₁ s') (he : Harmless t s s') : (rivalry S).Allowed t s s' :=
  ⟨k.inv, fun u hu => (rivalry S).rely_trans u (h.others u hu) (k.others u hu), he⟩

theorem Hosting.free (hi : Undivided S s) (h : Hosting t b s) (c : Claim) (hc : c ∈ s.claims)
    (hct : c.thread = t) : s.taken c.bot t = false := by
  refine (Bool.not_eq_true _).mp fun ht => ?_
  have hin : (c.thread, c.bot) ∈ s.inside := by
    rw [hct, h.1 c hc hct]
    exact h.2
  exact (hi.calm c hc (hct.symm ▸ ht)).2 hin

theorem exec_joining {r : Answer (.attend b (.transaction (.advance .joining)))}
    (hi : Undivided S s) (h : Hosting t b s)
    (hc : (undisturbed S).call t k (.attend b (.transaction (.advance .joining))) s)
    (he : exec S t (.attend b (.transaction (.advance .joining))) c s = some (s', r)) :
    (rivalry S).Allowed t s s' ∧ Hosting t b s' ∧ (r = .ok () → s'.joinedBy b = some t) := by
  obtain ⟨v, hcame, hnote⟩ := exec_came he
  obtain rfl : s' = v := hnote
  have heffect : ∀ {c v r}, effect S t (.attend b (.transaction (.advance .joining))) c s =
      some (v, r) → (rivalry S).Allowed t s v ∧ Hosting t b v ∧
        (r = .ok () → v.joinedBy b = some t) := by
    intro c v r he
    rcases transaction_cases (Option.some.inj he) with ⟨rfl, rfl, -⟩ | ⟨run, run', hrun, happly, -, rfl⟩
    · exact ⟨allowed_refl hi, h, nofun⟩
    · have hjoins : (Tx.advance .joining).joins = true := rfl
      obtain ⟨hqueued, hjoining⟩ := queued_of_joins hjoins happly
      have hq : s.queued b = true := by
        unfold Cluster.queued Cluster.status
        rw [hrun]
        exact decide_eq_true (congrArg some hqueued)
      have hcalm : ∀ c ∈ s.claims, c.bot = b → c.thread ≠ t → c.thread ∉ s.failing :=
        fun c' hc' hb hne hm => hc rfl hq c' hc' hb hne c'.thread hm rfl
      exact ⟨allowed_joining hi h.1 h.2 hrun (moves_apply happly) hqueued hjoining hcalm, h,
        fun _ => Function.update_self _ _ _⟩
  cases hcame with
  | answered he => exact heffect he
  | @lost c v r e f hlost _ =>
    obtain ⟨ha, hh, -⟩ := heffect hlost
    exact ⟨allowed_raising f ha, hh, nofun⟩
  | @refused e f _ => exact ⟨allowed_raising f (allowed_refl hi), h, nofun⟩

theorem exec_ended {r : Answer (.attended b)} (hi : Undivided S s) (h : Hosting t b s)
    (he : exec S t (.attended b) c s = some (s', r)) :
    (rivalry S).Allowed t s s' ∧ Lodged t b s' := by
  obtain ⟨v, hc, rfl⟩ := exec_came he
  cases hc with
  | lost _ h => cases h
  | refused h => cases h
  | answered he =>
    obtain ⟨rfl, rfl⟩ := Prod.mk.inj (Option.some.inj he)
    exact ⟨allowed_attended hi, h, fun _ hm => (mem_drop.mp hm).2 rfl⟩

theorem exec_reserving {r : Answer (.tryReserve b t)} (hi : Undivided S s) (h : Unreserved t b s)
    (hc : (undisturbed S).call t k (.tryReserve b t) s)
    (he : exec S t (.tryReserve b t) c s = some (s', r)) :
    (rivalry S).Allowed t s s' ∧ Outside t b s' ∧ (r = .ok true → Lodged t b s') ∧
      (r = .ok false → Unreserved t b s') := by
  obtain ⟨v, hcame, rfl⟩ := exec_came he
  have hmore : ∀ c : Outcome, (rivalry S).Allowed t s { s with ledger :=
      (s.ledger.tryReserve S.tenant S.maxConcurrentRuns b t c.now).1 } := fun c =>
    allowed_reserving hi (hi.balanced.tryReserve rfl) (fun _ => Ledger.mem_opened_tryReserve rfl)
      fun _ => Ledger.mem_opened_of_tryReserve rfl
  cases hcame with
  | @answered c v r heffect =>
    obtain ⟨rfl, rfl⟩ := Prod.mk.inj (Option.some.inj heffect)
    cases hok : (s.ledger.tryReserve S.tenant S.maxConcurrentRuns b t c.now).2 with
    | false =>
      have hopen := Ledger.opened_of_tryReserve_false (l := s.ledger) (Prod.ext rfl hok)
      refine ⟨hmore c, h.1, nofun, fun _ => ⟨h.1, fun hh => h.2 ?_⟩⟩
      obtain ⟨r, hr, hbot, hown⟩ := hh
      exact ⟨r, hopen ▸ hr, hbot, hown⟩
    | true =>
      have hholds := Ledger.holds_of_tryReserve (l := s.ledger) (Prod.ext rfl hok)
      have hfree : ∀ c ∈ s.claims, c.thread = t → s.taken c.bot t = false := by
        intro c' hc' hct
        rw [h.1.1 c' hc' hct]
        refine (Bool.not_eq_true _).mp fun ht => ?_
        exact Ledger.not_reserved_of_tryReserve (l := s.ledger) (Prod.ext rfl hok) h.2
          (Ledger.reserved_of_find (hc ht))
      have hinside := allowed_inside (hmore c).inv hholds hfree
      have hharm : Harmless t s { s with
          ledger := (s.ledger.tryReserve S.tenant S.maxConcurrentRuns b t c.now).1
          inside := (t, b) :: s.inside } :=
        harmless_of_eq rfl (fun _ => Ledger.mem_opened_tryReserve rfl) rfl rfl
      refine ⟨allowed_trans (hmore c) hinside hharm, h.1, fun _ => ?_, nofun⟩
      exact ⟨⟨h.1.1, List.mem_cons_self⟩, h.1.2⟩
  | @lost c v r e f heffect _ =>
    obtain ⟨rfl, -⟩ := Prod.mk.inj (Option.some.inj heffect)
    exact ⟨allowed_raising f (hmore c), h.1, nofun, nofun⟩
  | @refused e f _ => exact ⟨allowed_raising f (allowed_refl hi), h.1, nofun, nofun⟩

/-- The answer of a call that looks, and what is noted of it. -/
theorem exec_came_looking {r : Answer i} (he : exec S t i c s = some (s', r))
    (hlooks : ∀ {c v r}, effect S t i c s = some (v, r) → v = s) :
    (∃ c, effect S t i c s = some (s, r)) ∧ s' = note t i r s ∨
      (∃ e, r = .error e) ∧ ∃ f, s' = note t i r { s with raising := f } := by
  obtain ⟨v, hc, rfl⟩ := exec_came he
  cases hc with
  | @answered c v r heffect =>
    obtain rfl := hlooks heffect
    exact Or.inl ⟨⟨c, heffect⟩, rfl⟩
  | @lost c v r e f heffect _ =>
    obtain rfl := hlooks heffect
    exact Or.inr ⟨⟨e, rfl⟩, f, rfl⟩
  | @refused e f _ => exact Or.inr ⟨⟨e, rfl⟩, f, rfl⟩

theorem exec_isCancelled {r : Answer (.isCancelled b true)} (hi : Undivided S s)
    (h : Outside t b s) (hc : (undisturbed S).call t k (.isCancelled b true) s)
    (he : exec S t (.isCancelled b true) c s = some (s', r)) :
    (rivalry S).Allowed t s s' ∧ Outside t b s' ∧ (r = .ok true → Doomed t b s') ∧
      s'.ledger = s.ledger := by
  rcases exec_came_looking he fun he => (Prod.mk.inj (Option.some.inj he)).1.symm with
    ⟨⟨c, heffect⟩, rfl⟩ | ⟨⟨e, rfl⟩, f, rfl⟩
  · obtain ⟨-, rfl⟩ := Prod.mk.inj (Option.some.inj heffect)
    cases hkey : s.cancelKey b with
    | false => exact ⟨allowed_refl hi, h, nofun, rfl⟩
    | true =>
      have hfree : ∀ c ∈ s.claims, c.thread = t → s.taken c.bot t = false := by
        intro c' hc' hct
        rw [h.1 c' hc' hct]
        refine (Bool.not_eq_true _).mp fun ht => ?_
        rw [hc ht] at hkey
        cases hkey
      exact ⟨allowed_failing hi hfree, h, fun _ => ⟨h.1, List.mem_cons_self⟩, rfl⟩
  · exact ⟨allowed_raising f (allowed_refl hi), h, nofun, rfl⟩

theorem exec_hasOther {r : Answer (.hasOtherReservation b t)} (hi : Undivided S s)
    (h : Unreserved t b s) (hc : (undisturbed S).call t k (.hasOtherReservation b t) s)
    (he : exec S t (.hasOtherReservation b t) c s = some (s', r)) :
    (rivalry S).Allowed t s s' ∧ Outside t b s' ∧ (r = .ok false → Doomed t b s') := by
  rcases exec_came_looking he fun he => (Prod.mk.inj (Option.some.inj he)).1.symm with
    ⟨⟨c, heffect⟩, rfl⟩ | ⟨⟨e, rfl⟩, f, rfl⟩
  · obtain ⟨-, rfl⟩ := Prod.mk.inj (Option.some.inj heffect)
    cases hother : s.ledger.hasOther b t with
    | true =>
      have ha : (rivalry S).Allowed t s { s with leaving := t :: s.leaving } :=
        ⟨⟨hi.balanced, hi.inside, hi.attends, hi.joined, hi.calm, hi.jobs⟩,
          fun u _ => ⟨fun _ _ => Iff.rfl, fun _ => Iff.rfl, fun _ => Iff.rfl, Iff.rfl, fun _ => id,
            fun _ => id⟩,
          harmless_of_eq rfl (fun _ => id) rfl rfl⟩
      exact ⟨ha, h.1, nofun⟩
    | false =>
      have hfree : ∀ c ∈ s.claims, c.thread = t → s.taken c.bot t = false := by
        intro c' hc' hct
        rw [h.1.1 c' hc' hct]
        refine (Bool.not_eq_true _).mp fun ht => ?_
        rw [Ledger.hasOther_of_reserved (Ledger.reserved_of_find (hc ht)) h.2] at hother
        cases hother
      exact ⟨allowed_failing hi hfree, h.1, fun _ => ⟨h.1.1, List.mem_cons_self⟩⟩
  · exact ⟨allowed_raising f (allowed_refl hi), h.1, nofun⟩

theorem exec_acquireLease {r : Answer .acquireLease} (hi : Undivided S s) (h : Lodged t b s)
    (he : exec S t .acquireLease c s = some (s', r)) :
    (rivalry S).Allowed t s s' ∧ Lodged t b s' := by
  rcases exec_came_looking he fun he => (Prod.mk.inj (Option.some.inj he)).1.symm with
    ⟨⟨c, heffect⟩, rfl⟩ | ⟨⟨e, rfl⟩, f, rfl⟩
  · obtain ⟨-, rfl⟩ := Prod.mk.inj (Option.some.inj heffect)
    cases c.flag with
    | true => exact ⟨allowed_refl hi, h⟩
    | false => exact ⟨allowed_failing hi (h.1.free hi), h⟩
  · exact ⟨allowed_raising f (allowed_refl hi), h⟩

theorem exec_handling {r : Answer .handling} (hi : Undivided S s) (h : Owns t b s)
    (hc : (undisturbed S).call t k .handling s) (he : exec S t .handling c s = some (s', r)) :
    (rivalry S).Allowed t s s' ∧ Doomed t b s' := by
  obtain ⟨v, hcame, rfl⟩ := exec_came he
  cases hcame with
  | lost _ h => cases h
  | refused h => cases h
  | answered he =>
    obtain ⟨rfl, rfl⟩ := Prod.mk.inj (Option.some.inj he)
    have ha := allowed_failing hi hc
    exact ⟨⟨⟨ha.inv.balanced, ha.inv.inside, ha.inv.attends, ha.inv.joined, ha.inv.calm, ha.inv.jobs⟩,
      fun u hu => ⟨(ha.others u hu).claims, (ha.others u hu).inside, (ha.others u hu).attends,
        (ha.others u hu).failing, (ha.others u hu).joined, (ha.others u hu).holds⟩,
      harmless_of_eq rfl (fun _ => id) rfl rfl⟩, h, List.mem_cons_self⟩

theorem exec_ack {entry : ℕ} {r : Answer (.ack entry)} (hi : Undivided S s)
    (he : exec S t (.ack entry) c s = some (s', r)) : (rivalry S).Allowed t s s' := by
  obtain ⟨v, hcame, rfl⟩ := exec_came he
  have hstill : Still s v := by
    refine hcame.elim (P := Still s) (fun _ f h => still_raising f h) (.refl s) fun c v r he => ?_
    obtain ⟨rfl, -⟩ := Prod.mk.inj (Option.some.inj he)
    exact ⟨rfl, rfl, rfl, rfl, rfl, rfl, rfl, rfl, rfl, rfl⟩
  have hruns : v.runs = s.runs ∧ v.beatKey = s.beatKey ∧ v.directory = s.directory := by
    refine hcame.elim (P := fun v => v.runs = s.runs ∧ v.beatKey = s.beatKey ∧
      v.directory = s.directory) (fun _ _ h => h) ⟨rfl, rfl, rfl⟩ fun c v r he => ?_
    obtain ⟨rfl, -⟩ := Prod.mk.inj (Option.some.inj he)
    exact ⟨rfl, rfl, rfl⟩
  have hl : ∀ x ∈ s.ledger.opened, x ∈ v.ledger.opened := fun x hx => hstill.ledger ▸ hx
  have hv : (rivalry S).Allowed t s v :=
    allowed_still hi hstill (onward_of_runs (E := fun _ => False) hruns.1)
      (harmless_of_eq hruns.1 hl hruns.2.1 hruns.2.2)
  exact allowed_trans hv (allowed_acked hv.inv) (harmless_of_eq hruns.1 hl hruns.2.1 hruns.2.2)

theorem exec_releasing {r : Answer (.releaseCapacity b)} (hi : Undivided S s) (h : Lodged t b s)
    (he : exec S t (.releaseCapacity b) c s = some (s', r)) :
    (rivalry S).Allowed t s s' ∧ Owns t b s' := by
  obtain ⟨v, hcame, rfl⟩ := exec_came he
  have hrelease : ∀ {l}, (l = s.ledger ∨ ∃ moment, l = s.ledger.release b moment) →
      (rivalry S).Allowed t s { s with ledger := l, inside := drop t s.inside } := fun hl =>
    allowed_releasing hi h.1.1 h.1.2 h.2 hl
  cases hcame with
  | @answered c v r heffect =>
    obtain ⟨rfl, rfl⟩ := Prod.mk.inj (Option.some.inj heffect)
    exact ⟨hrelease (Or.inr ⟨c.now, rfl⟩), h.1.1⟩
  | @lost c v r e f heffect _ =>
    obtain ⟨rfl, -⟩ := Prod.mk.inj (Option.some.inj heffect)
    exact ⟨allowed_raising f (hrelease (Or.inr ⟨c.now, rfl⟩)), h.1.1⟩
  | @refused e f _ => exact ⟨allowed_raising f (hrelease (Or.inl rfl)), h.1.1⟩

theorem exec_sweeping {moment : ℕ} {r : Answer (.sweepCapacity moment)} (hi : Undivided S s)
    (h : Apart t s) (hc : (undisturbed S).call t k (.sweepCapacity moment) s)
    (he : exec S t (.sweepCapacity moment) c s = some (s', r)) :
    (rivalry S).Allowed t s s' ∧ Apart t s' := by
  obtain ⟨v, hcame, rfl⟩ := exec_came he
  cases hcame with
  | @answered c v r heffect =>
    obtain ⟨rfl, rfl⟩ := Prod.mk.inj (Option.some.inj heffect)
    exact ⟨allowed_sweeping hi hc h, h⟩
  | @lost c v r e f heffect _ =>
    obtain ⟨rfl, -⟩ := Prod.mk.inj (Option.some.inj heffect)
    exact ⟨allowed_raising f (allowed_sweeping hi hc h), h⟩
  | @refused e f _ => exact ⟨allowed_raising f (allowed_refl hi), h⟩

end calls

section programs

theorem wp_call {Q : Except Raised (Reply i) → Cluster → Prop} :
    (rivalry S).wp t k (perform i).run Q s ↔ ∀ s₁, Steady t s s₁ → Undivided S s₁ →
      (undisturbed S).call t k i s₁ → ∀ c s₂ r, exec S t i c s₁ = some (s₂, r) →
        (rivalry S).Allowed t s₁ s₂ ∧ Q r s₂ := Iff.rfl

theorem wp_attend (hs : Hosting t b s) :
    (rivalry S).wp t k (attend (call b) S.hasBlob p.meeting).run (fun _ => Hosting t b) s := by
  have hrestore : (call b .restoreProfile).run.Uses Call.Lodging := uses_call trivial
  refine Protocol.wp_task_bind.mpr (Protocol.wp_mono (wp_hosting hrestore hs) fun r s₁ h₁ => ?_)
  cases r with
  | error _ => exact h₁
  | ok _ =>
    refine Protocol.wp_ensuring.mpr
      (Protocol.wp_mono (Q := fun _ => Hosting t b) ?_ fun r s₂ h₂ => ?_)
    · refine Protocol.wp_task_bind.mpr (wp_call.mpr fun s₂ hu hi hc c s₃ r he => ?_)
      obtain ⟨ha, hhosting, hjoined⟩ := exec_joining hi (lasting_hosting hu h₁) hc he
      refine ⟨ha, ?_⟩
      cases r with
      | error _ => exact hhosting
      | ok _ =>
        have huses : (afterJoining (call b) S.hasBlob p.meeting).run.Uses
            fun i => ∃ j, i = .attend b j ∧ j.joins = false :=
          uses_afterJoining fun j hj => uses_call ⟨j, rfl, joins_of_attending hj⟩
        exact Protocol.wp_mono (wp_joined huses ⟨hhosting, hjoined rfl⟩) fun _ _ h => h.1
    · have hcleanUp : (cleanUp (call b)).run.Uses Call.Lodging := by
        refine Task.uses_bind (uses_call (i := .attend b .cancelHeartbeat) trivial) fun _ => ?_
        refine Task.uses_bind (Task.uses_rescue (uses_call (i := .attend b .clearBeat) trivial)
          fun _ => trivial) fun _ => ?_
        exact uses_call (i := .attend b .persistProfile) trivial
      refine Protocol.wp_mono (wp_hosting hcleanUp h₂) fun r' s₃ h₃ => ?_
      cases r' with
      | ok _ => exact h₃
      | error _ => exact h₃

theorem wp_hosted (hs : Lodged t b s) :
    (rivalry S).wp t k (spawnAttend S b p).run (fun _ => Lodged t b) s := by
  refine Protocol.wp_ensuring.mpr (Protocol.wp_mono (wp_attend hs.1) fun r s₁ h₁ => ?_)
  refine wp_call.mpr fun s₂ hu hi _ c s₃ r' he => ?_
  obtain ⟨ha, hh⟩ := exec_ended hi (lasting_hosting hu h₁) he
  refine ⟨ha, ?_⟩
  cases r' with
  | ok _ => exact hh
  | error _ => exact hh

/-- `ProcessRuntime.spawn`. -/
theorem wp_spawned (hS : S.botRuntime = .process) (hs : Lodged t b s) :
    (rivalry S).wp t k (spawn S b p).run (fun _ => Lodged t b) s := by
  unfold spawn
  rw [hS]
  have hget : (call b .getRun).run.Uses Call.Lodging := uses_call trivial
  refine Protocol.wp_task_bind.mpr (Protocol.wp_mono (wp_lodging hget hs) fun r s₁ h₁ => ?_)
  cases r with
  | error _ => exact h₁
  | ok run =>
    have hprepare : (perform (.prepareLaunch b)).run.Uses Call.Lodging := uses_call trivial
    refine Protocol.wp_task_bind.mpr (Protocol.wp_mono (wp_lodging hprepare h₁) fun r s₂ h₂ => ?_)
    cases r with
    | error _ => exact h₂
    | ok _ => exact wp_hosted h₂

theorem settles_lodging (j : Runtime.Call) (h : j.settles = true) : (Call.attend b j).Lodging := by
  match j with
  | .getRun | .restorePrefix => trivial
  | .transaction tx => exact h

theorem wp_busy (hs : Lodged t b s) :
    (rivalry S).wp t k (profileBusy S).run (fun _ => Lodged t b) s := by
  unfold profileBusy
  split
  · refine Protocol.wp_bind.mpr (wp_call.mpr fun s₁ hu hi _ c s₂ r he => ?_)
    obtain ⟨ha, hh⟩ := exec_acquireLease hi (lasting_lodged hu hs) he
    refine ⟨ha, ?_⟩
    cases r with
    | ok _ => exact hh
    | error _ => exact hh
  · exact hs

theorem wp_attempted (hS : S.botRuntime = .process) (hs : Lodged t b s) :
    (rivalry S).wp t k (attempt S b p).run (fun _ => Lodged t b) s := by
  refine Protocol.wp_task_bind.mpr (Protocol.wp_mono (wp_busy hs) fun r s₁ h₁ => ?_)
  match r with
  | .error _ => exact h₁
  | .ok true => exact wp_lodging (uses_fail settles_lodging _) h₁
  | .ok false =>
    have hlaunch : (perform .launchRuntime).run.Uses Call.Lodging := uses_call trivial
    refine Protocol.wp_task_bind.mpr (Protocol.wp_mono (wp_lodging hlaunch h₁) fun r s₂ h₂ => ?_)
    cases r with
    | error _ => exact h₂
    | ok _ =>
      refine Protocol.wp_ensuring.mpr (Protocol.wp_mono (wp_spawned hS h₂) fun r s₃ h₃ => ?_)
      have hrelease := uses_releaseLease (S := S) (P := Call.Looks) fun _ h => h
      refine Protocol.wp_mono (wp_looking lasting_lodged hrelease h₃) fun r' s₄ h₄ => ?_
      cases r' with
      | ok _ => exact h₄
      | error _ => exact h₄

theorem wp_reserving (n : ℕ) (hs : Unreserved t b s) :
    (rivalry S).wp t k (reserveCapacity b t n).run (fun r s => Outside t b s ∧
      (r = .ok true → Lodged t b s) ∧ (r = .ok false → Unreserved t b s)) s := by
  induction n generalizing s with
  | zero =>
    refine wp_call.mpr fun s₁ hu hi hc c s₂ r he => ?_
    exact exec_reserving hi (lasting_unreserved hu hs) hc he
  | succ n ih =>
    refine Protocol.wp_task_bind.mpr (wp_call.mpr fun s₁ hu hi hc c s₂ r he => ?_)
    obtain ⟨ha, houtside, hlodged, hfree⟩ := exec_reserving hi (lasting_unreserved hu hs) hc he
    refine ⟨ha, ?_⟩
    match r with
    | .error _ => exact ⟨houtside, nofun, nofun⟩
    | .ok true => exact ⟨houtside, fun _ => hlodged rfl, nofun⟩
    | .ok false =>
      have hsleep : (perform .sleep).run.Uses Call.Looks := uses_call (i := .sleep) trivial
      refine Protocol.wp_task_bind.mpr
        (Protocol.wp_mono (wp_looking lasting_unreserved hsleep (hfree rfl)) fun r s₃ h₃ => ?_)
      cases r with
      | error _ => exact ⟨h₃.1, nofun, nofun⟩
      | ok _ => exact ih h₃

theorem wp_failing (code : String) (hs : Doomed t b s) :
    (rivalry S).wp t k (failRun (call b) S.hasBlob code).run (fun _ => Owns t b) s := by
  have huses := uses_fail (S := S) (b := b) (P := fun i => ∃ j, i = .attend b j ∧ j.settles = true)
    (fun j hj => ⟨j, rfl, hj⟩) code
  exact Protocol.wp_mono (wp_doomed huses hs) fun _ _ h => h.1

theorem exec_uuid4 {r : Answer .uuid4} (he : exec S t .uuid4 c s = some (s', r)) : r = .ok t := by
  obtain ⟨v, hc, -⟩ := exec_came he
  cases hc with
  | answered heffect => exact (Prod.mk.inj (Option.some.inj heffect)).2.symm
  | lost _ h => cases h
  | refused h => cases h

theorem wp_executed (hS : S.botRuntime = .process) (hs : Unreserved t b s) :
    (rivalry S).wp t k (executeRun S b p).run (fun _ => Owns t b) s := by
  refine Protocol.wp_task_bind.mpr (wp_call.mpr fun s₁ hu hi hc c s₂ r he => ?_)
  have h₁ := lasting_unreserved hu hs
  obtain ⟨ha, houtside, hdoomed, hledger⟩ := exec_isCancelled hi h₁.1 hc he
  have h₂ : Unreserved t b s₂ := ⟨houtside, hledger ▸ h₁.2⟩
  refine ⟨ha, ?_⟩
  match r with
  | .error _ => exact houtside.1
  | .ok true => exact wp_failing _ (hdoomed rfl)
  | .ok false =>
    have hget : (call b .getRun).run.Uses Call.Looks := uses_call (i := .attend b .getRun) trivial
    refine Protocol.wp_task_bind.mpr
      (Protocol.wp_mono (wp_looking lasting_unreserved hget h₂) fun r s₃ h₃ => ?_)
    cases r with
    | error _ => exact h₃.1.1
    | ok run =>
      dsimp only
      split
      · exact h₃.1.1
      · refine Protocol.wp_task_bind.mpr (wp_call.mpr fun s₄ hu hi _ c s₅ r he => ?_)
        obtain rfl := exec_uuid4 he
        have hstill := exec_still (i := .uuid4) trivial he
        have h₅ := lasting_unreserved hstill.steady (lasting_unreserved hu h₃)
        refine ⟨allowed_still hi hstill (exec_onward he) (harmless_looks (i := .uuid4) trivial he), ?_⟩
        refine Protocol.wp_task_bind.mpr
          (Protocol.wp_mono (wp_reserving p.attempts h₅) fun r s₆ h₆ => ?_)
        obtain ⟨houtside, hlodged, hfree⟩ := h₆
        match r with
        | .error _ => exact houtside.1
        | .ok true =>
          refine Protocol.wp_ensuring.mpr
            (Protocol.wp_mono (wp_attempted hS (hlodged rfl)) fun r s₇ h₇ => ?_)
          refine wp_call.mpr fun s₈ hu hi _ c s₉ r' he => ?_
          obtain ⟨ha, ho⟩ := exec_releasing hi (lasting_lodged hu h₇) he
          refine ⟨ha, ?_⟩
          cases r' with
          | ok _ => exact ho
          | error _ => exact ho
        | .ok false =>
          refine Protocol.wp_task_bind.mpr (wp_call.mpr fun s₇ hu hi hc c s₈ r he => ?_)
          obtain ⟨ha, houtside, hdoomed⟩ := exec_hasOther hi (lasting_unreserved hu (hfree rfl)) hc he
          refine ⟨ha, ?_⟩
          match r with
          | .error _ => exact houtside.1
          | .ok true => exact houtside.1
          | .ok false => exact wp_failing _ (hdoomed rfl)

theorem wp_claimedRun (hS : S.botRuntime = .process) (worker : ℕ) (hs : Unreserved t b s) :
    (rivalry S).wp t k (claimed S worker b p).run (fun _ => Owns t b) s := by
  have hstopped := uses_stopped (b := b) (P := Call.Looks) (fun _ h => h) worker
  refine Protocol.wp_task_bind.mpr
    (Protocol.wp_mono (wp_looking lasting_unreserved hstopped hs) fun r s₁ h₁ => ?_)
  match r with
  | .error _ => exact h₁.1.1
  | .ok true => exact h₁.1.1
  | .ok false =>
    have hpace := uses_pace (b := b) (P := Call.Looks) (fun _ h => h) worker p.pacing
    refine Protocol.wp_task_bind.mpr
      (Protocol.wp_mono (wp_looking lasting_unreserved hpace h₁) fun r s₂ h₂ => ?_)
    match r with
    | .error _ => exact h₂.1.1
    | .ok true => exact wp_executed hS h₂
    | .ok false => exact h₂.1.1

theorem wp_claim (hS : S.botRuntime = .process) (worker entry : ℕ) (hs : Unreserved t b s) :
    (rivalry S).wp t k (runClaim S worker b p entry).run (fun _ _ => True) s := by
  refine Protocol.wp_ensuring.mpr
    (Protocol.wp_mono (Q := fun _ => Owns t b) ?_ fun r s₁ h₁ => ?_)
  · refine Protocol.wp_except.mpr (Protocol.wp_mono (wp_claimedRun hS worker hs) fun r s₁ h₁ => ?_)
    match r with
    | .ok _ => exact h₁
    | .error .cancelled => exact h₁
    | .error (.exception code) =>
      refine Protocol.wp_task_bind.mpr (wp_call.mpr fun s₂ hu hi hc c s₃ r he => ?_)
      obtain ⟨ha, hdoomed⟩ := exec_handling hi (lasting_owns hu h₁) hc he
      refine ⟨ha, ?_⟩
      cases r with
      | ok _ => exact wp_failing _ hdoomed
      | error _ => exact hdoomed.1
  · refine wp_call.mpr fun s₂ hu hi _ c s₃ r' he => ⟨exec_ack hi he, ?_⟩
    cases r' with
    | ok _ => trivial
    | error _ => trivial

theorem wp_sweeping (hs : Apart t s) :
    (rivalry S).wp t k sweepCapacity.run (fun _ => Apart t) s := by
  have hnow : (perform .utcnow).run.Uses Call.Unnoted := uses_call (i := .utcnow) trivial
  refine Protocol.wp_task_bind.mpr (Protocol.wp_mono (wp_apart hnow hs) fun r s₁ h₁ => ?_)
  cases r with
  | error _ => exact h₁
  | ok moment =>
    refine wp_call.mpr fun s₂ hu hi hc c s₃ r he => ?_
    exact exec_sweeping hi (lasting_apart hu h₁) hc he

end programs

section machine

theorem allowed_claim {worker entry : ℕ} (hi : Undivided S s) (hf : Fresh t s)
    (h : s.claim t worker entry b = some s') :
    (rivalry S).Allowed t s s' ∧ Unreserved t b s' := by
  unfold Cluster.claim at h
  split at h
  · obtain rfl := Option.some.inj h
    refine ⟨⟨⟨hi.balanced, hi.inside, hi.attends, hi.joined, fun c hc ht => ?_, hi.jobs⟩,
      fun u hu => ⟨fun c hc => ?_, fun _ => Iff.rfl, fun _ => Iff.rfl, Iff.rfl, fun _ => id,
        fun _ => id⟩, harmless_of_eq rfl (fun _ => id) rfl rfl⟩, ⟨fun c hc hct => ?_, fun b hm => ?_⟩,
      hf.holds b⟩
    · rcases List.mem_cons.mp hc with rfl | hc
      · exact ⟨hf.failing, hf.inside b⟩
      · exact hi.calm c hc ht
    · refine ⟨fun hm => ?_, List.mem_cons_of_mem _⟩
      rcases List.mem_cons.mp hm with rfl | hm
      · exact (hu hc.symm).elim
      · exact hm
    · rcases List.mem_cons.mp hc with rfl | hc
      · rfl
      · exact (hf.claims c hc hct).elim
    · exact hf.inside b (hi.attends _ hm)
  · cases h

theorem fresh_steady (hu : Steady t s s') (h : Fresh t s) : Fresh t s' :=
  ⟨lasting_apart hu h.claims, fun b hm => h.inside b ((hu.inside b).mp hm),
    fun hm => h.failing (hu.failing.mp hm), fun b hh => h.holds b (hu.holds b hh)⟩

theorem allowed_killed (hi : Undivided S s) : (rivalry S).Allowed t s (s.kill t) := by
  refine ⟨⟨hi.balanced, fun x hx => hi.inside x (mem_drop.mp hx).1, fun x hx => ?_, hi.joined,
    fun c hc ht => ?_, fun b hb => ?_⟩, fun u hu => ?_, harmless_of_eq rfl (fun _ => id) rfl rfl⟩
  · obtain ⟨hx, hne⟩ := mem_drop.mp hx
    exact mem_drop.mpr ⟨hi.attends x hx, hne⟩
  · obtain ⟨hf, hnot⟩ := hi.calm c (List.mem_of_mem_filter hc) ht
    exact ⟨hf, fun hm => hnot (mem_drop.mp hm).1⟩
  · have hjob : (if s.job b = some (.running t) then some .finished else s.job b) =
        some JobStatus.waiting := hb
    split at hjob
    · cases hjob
    · exact hi.jobs b hjob
  · refine ⟨fun c hc => ?_, Mine.drop_of_ne hu _, Mine.drop_of_ne hu _, Iff.rfl, fun _ => id,
      fun _ => id⟩
    have hne : c.thread ≠ t := fun he => hu (hc.symm.trans he)
    exact ⟨List.mem_of_mem_filter, fun hm => List.mem_filter.mpr ⟨hm, decide_eq_true hne⟩⟩

theorem undivided_init (S : Settings) : Undivided S {} where
  balanced := (admitted_init S).balanced
  inside _ h := by cases h
  attends _ h := by cases h
  joined _ _ h := by cases h
  calm _ h := by cases h
  jobs _ := nofun

theorem fresh_init : Fresh t {} where
  claims _ h := by cases h
  inside _ h := by cases h
  failing := nofun
  holds _ h := by
    obtain ⟨r, hr, -⟩ := h
    cases hr

theorem rivalry_sound (hS : S.botRuntime = .process) : (rivalry S).Sound where
  idle := fresh_steady
  final _ _ := trivial
  start {t k s s'} hi hfresh _ hb := by
    have hdaemon : ∀ {q : Act Unit}, (rivalry S).wp t k q.run (fun _ => Apart t) s →
        (rivalry S).wp t k (q.run >>= fun _ => .done ()) (fun _ _ => True) s := fun h =>
      Protocol.wp_bind.mpr (Protocol.wp_mono h fun _ _ _ => trivial)
    cases k with
    | runClaim worker entry b p =>
      obtain ⟨ha, hs⟩ := allowed_claim hi hfresh hb
      exact ⟨ha, Protocol.wp_bind.mpr (Protocol.wp_mono (wp_claim hS worker entry hs)
        fun _ _ _ => trivial)⟩
    | botRun b p errorCode =>
      have hpod : s.startPod t b = some s' := hb
      unfold Cluster.startPod at hpod
      rw [if_neg (hi.jobs b)] at hpod
      cases hpod
    | relayQueued =>
      obtain rfl := Option.some.inj hb
      exact ⟨allowed_refl hi, hdaemon (wp_apart uses_relayQueued hfresh.claims)⟩
    | sweepCapacity =>
      obtain rfl := Option.some.inj hb
      exact ⟨allowed_refl hi, hdaemon (wp_sweeping hfresh.claims)⟩
    | sweepOrphans staleAfter =>
      obtain rfl := Option.some.inj hb
      exact ⟨allowed_refl hi, hdaemon (wp_apart (uses_sweepOrphans (fun _ => unnoted_of_looks)
        (fun _ => trivial) staleAfter) hfresh.claims)⟩
    | cancelBot b =>
      obtain rfl := Option.some.inj hb
      exact ⟨allowed_refl hi, hdaemon (wp_apart uses_cancelBot hfresh.claims)⟩
  kill hi _ := ⟨allowed_killed hi, trivial⟩
  env {_ s _} hi _ he := by
    rcases step_still he with hq | ⟨b, status, hne, rfl⟩
    · exact ⟨hi.of_still hq (step_onward he), fun _ => hq.steady⟩
    · refine ⟨⟨hi.balanced, hi.inside, hi.attends, hi.joined, hi.calm, fun b' hb' => ?_⟩, fun _ =>
        ⟨fun _ _ => Iff.rfl, fun _ => Iff.rfl, fun _ => Iff.rfl, Iff.rfl, fun _ => id, fun _ => id⟩⟩
      have hjob : Function.update s.job b status b' = some .waiting := hb'
      by_cases hbb : b' = b
      · subst hbb
        rw [Function.update_self] at hjob
        exact hne hjob
      · rw [Function.update_of_ne hbb] at hjob
        exact hi.jobs b' hjob

/-- In every run that meets the condition, no step of an execution harms another execution of the bot
that has made the run joining. -/
theorem duplicates_harmless {S : Settings} (hS : S.botRuntime = .process)
    {es : List (Event Role Outcome World)} {t : ℕ} {c : Outcome} {s s' : (cluster S).State}
    (hm : (undisturbed S).Meets ((cluster S).init {}) (es ++ [.step t c]))
    (hr : (cluster S).run ((cluster S).init {}) es = some s)
    (hs : (cluster S).step s (.step t c) = some s') : Harmless t s.shared s'.shared := by
  have hinit : (rivalry S).Holds ((cluster S).init {}) :=
    Protocol.holds_init (undivided_init S) fun _ => fresh_init
  obtain ⟨hm, hc, -⟩ := hm.of_append hr
  exact ((rivalry_sound hS).run hinit hm hr).effect hc hs

/-- Whether the run of bot 0 has been made joining by thread 1 while thread 2 executes it as well. -/
def shared (s : (cluster (oneSlot .process)).State) : Bool :=
  s.shared.claims.any (fun c => c.thread = 2 && c.bot = 0) && s.shared.joinedBy 0 = some 1

/-- The entry of a run that has not joined for long is delivered again. The duplicate reads the run
while it is queued and attempts to reserve when the first execution has joined. -/
def redelivered : Events := relayed ++ .start 1 (.runClaim 0 0 0 {}) :: calls 1 10 ++
  .env (.elapse ORPHAN_IDLE_MS) :: .start 2 (.runClaim 0 0 0 {}) :: calls 2 5 ++ calls 1 1

theorem duplicates_harmless_redelivered : ∃ s s',
    (cluster (oneSlot .process)).run ((cluster (oneSlot .process)).init {}) redelivered = some s ∧
      (cluster (oneSlot .process)).step s (.step 2 {}) = some s' ∧ shared s = true ∧
      Harmless 2 s.shared s'.shared := by
  have hsome : ((cluster (oneSlot .process)).run ((cluster (oneSlot .process)).init {})
      redelivered).any (fun s => ((cluster (oneSlot .process)).step s (.step 2 {})).any fun _ =>
        shared s) = true := by decide +kernel
  obtain ⟨s, hs, hstep⟩ := (Option.any_eq_true _ _).mp hsome
  obtain ⟨s', hs', hshared⟩ := (Option.any_eq_true _ _).mp hstep
  refine ⟨s, s', hs, hs', hshared, duplicates_harmless rfl ?_ hs hs'⟩
  decide +kernel

/-- The meeting goes on for more than 300 s, the entry is delivered again, and Redis does not answer
the duplicate. -/
def refused : Events := relayed ++ .start 1 (.runClaim 0 0 0 {}) :: calls 1 11 ++
  .env (.elapse ORPHAN_IDLE_MS) :: .start 2 (.runClaim 0 0 0 {}) :: calls 2 1 ++
  .env (.raise 2 (.exception none) false) :: calls 2 3

theorem not_duplicates_harmless : ¬∀ (S : Settings), S.botRuntime = .process →
    ∀ (es : Events) (t : ℕ) (c : Outcome) (s s' : (cluster S).State),
      (cluster S).run ((cluster S).init {}) es = some s → (cluster S).step s (.step t c) = some s' →
        Harmless t s.shared s'.shared := by
  intro h
  have hsome : ((cluster (oneSlot .process)).run ((cluster (oneSlot .process)).init {})
      refused).any (fun s => ((cluster (oneSlot .process)).step s (.step 2 {})).any fun s' =>
        shared s && s.shared.status 0 = some .joining && s'.shared.status 0 = some .failed) = true := by
    decide +kernel
  obtain ⟨s, hs, hstep⟩ := (Option.any_eq_true _ _).mp hsome
  obtain ⟨s', hs', hstate⟩ := (Option.any_eq_true _ _).mp hstep
  simp only [shared, Bool.and_eq_true, List.any_eq_true, decide_eq_true_eq] at hstate
  obtain ⟨⟨⟨⟨c, hc, hthread, hbot⟩, hjoined⟩, hbefore⟩, hafter⟩ := hstate
  have hspared := h _ rfl refused 2 {} s s' hs hs' c hc hthread 1 (hbot.symm ▸ hjoined) (by decide)
  obtain ⟨run, hrun, hstatus⟩ := Option.map_eq_some_iff.mp hbefore
  obtain ⟨run', hrun', hsame⟩ := hspared.run run (hbot.symm ▸ hrun)
  have hafter : (s'.shared.runs 0).map BotRun.status = some .failed := hafter
  rw [← hbot, hrun', Option.map_some, hsame.status, hstatus] at hafter
  cases hafter

end machine

end Fakery.Worker

import Fakery.Worker.Queued

/-! What each step does to the runs that are queued: an execution gives one up only when it has
left the queue, or when another reservation has turned the execution away. -/
namespace Fakery.Worker
open Fakery.Bots Fakery.Concurrent Fakery.Runtime

variable {S : Settings} {t u b : ℕ} {k : Role} {i : Call} {c : Outcome} {s s' v : Cluster}
  {E : ℕ → Prop} {x : Claim} {h : Prop}

/-- A thread that has not begun. -/
structure Unborn (t : ℕ) (s : Cluster) : Prop where
  claims : ∀ c ∈ s.claims, c.thread ≠ t
  leaving : t ∉ s.leaving
  handling : t ∉ s.handling

def accounting (S : Settings) : Protocol (cluster S) where
  cond := unbroken S
  inv := Accounted
  rely := Guarding
  idle := Unborn
  rely_refl _ s := ⟨.refl s, fun _ _ => Iff.rfl, Iff.rfl, Iff.rfl, fun _ _ hg => hg⟩
  rely_trans t _ _ _ h k := by
    refine ⟨h.onward.trans k.onward, fun c hc => (k.claims c hc).trans (h.claims c hc),
      k.leaving.trans h.leaving, k.handling.trans h.handling, fun b hb hg => ?_⟩
    apply k.guarded b _ (h.guarded b hb hg)
    obtain ⟨run, hrun⟩ := Option.isSome_iff_exists.mp hb
    obtain ⟨run', hrun', -⟩ := h.onward b run hrun
    exact Option.isSome_iff_exists.mpr ⟨run', hrun'⟩

section keeping

theorem run_of_queued (hq : s.queued b = true) :
    ∃ run, s.runs b = some run ∧ run.status = .queued := by
  unfold Cluster.queued Cluster.status at hq
  exact Option.map_eq_some_iff.mp (of_decide_eq_true hq)

theorem Onward.isSome (ho : Onward E s s') (hb : (s.runs b).isSome = true) :
    (s'.runs b).isSome = true := by
  obtain ⟨run, hrun⟩ := Option.isSome_iff_exists.mp hb
  obtain ⟨run', hrun', -⟩ := ho b run hrun
  exact Option.isSome_iff_exists.mpr ⟨run', hrun'⟩

theorem guarded_congr (he : s'.entries = s.entries) (hc : s'.claims = s.claims)
    (hl : s'.leaving = s.leaving) : s'.Guarded b ↔ s.Guarded b := by
  unfold Cluster.Guarded Cluster.Stands
  rw [he, hc, hl]

/-- No run becomes queued. -/
theorem queued_of_onward (ho : Onward E s s') (ha : s.runs b = none → s'.runs b = none)
    (hq : s'.queued b = true) : s.queued b = true := by
  cases hrun : s.runs b with
  | some run => exact ho.queued (Option.isSome_iff_exists.mpr ⟨run, hrun⟩) hq
  | none =>
    obtain ⟨run, hrun', -⟩ := run_of_queued hq
    cases (ha hrun).symm.trans hrun'

/-- A queued run stays undispatched, unless it is in `E`. -/
theorem undispatched_of_onward (ho : Onward E s s') (hu : s.undispatched b = true) :
    s'.undispatched b = true ∨ E b := by
  obtain ⟨run, hrun, hpending⟩ := (Option.any_eq_true _ _).mp hu
  obtain ⟨run', hrun', -, hd⟩ := ho b run hrun
  refine hd.imp (fun hd => (Option.any_eq_true _ _).mpr ⟨run', hrun', ?_⟩) id
  rw [hd]
  exact hpending

theorem Accounted.of_keeping (hi : Accounted s) (hk : Keeping E s s')
    (hE : ∀ b, E b → s.queued b = true → s.Guarded b) : Accounted s' where
  guarded b hq := by
    have hqueued : s.queued b = true := queued_of_onward hk.onward (hk.absent b) hq
    have hcongr : s'.Guarded b ↔ s.Guarded b := guarded_congr hk.entries hk.claims hk.leaving
    rcases hi.guarded b hqueued with hu | hg
    · exact (undispatched_of_onward hk.onward hu).imp id fun hb => hcongr.mpr (hE b hb hqueued)
    · exact Or.inr (hcongr.mpr hg)
  cancelled b hb := hk.onward.dequeued (hi.cancelled b (hk.cancelled b hb))
  ids b run' hrun' := by
    cases hrun : s.runs b with
    | none => cases (hk.absent b hrun).symm.trans hrun'
    | some run =>
      obtain ⟨run₁, hrun₁, hf, -⟩ := hk.onward b run hrun
      obtain rfl := Option.some.inj (hrun'.symm.trans hrun₁)
      exact hf.id.trans (hi.ids b run hrun)
  entries := by
    rw [hk.entries]
    exact fun e he => ⟨(hi.entries e he).1, hk.onward.isSome (hi.entries e he).2⟩
  bots := by
    rw [hk.entries]
    exact hi.bots
  claims := by
    rw [hk.entries, hk.claims]
    exact hi.claims

theorem Keeping.guarding (hk : Keeping E s s') : Guarding t s s' := by
  refine ⟨hk.onward.mono fun _ _ => trivial, fun _ _ => hk.claims ▸ Iff.rfl, hk.leaving ▸ Iff.rfl,
    hk.handling ▸ Iff.rfl, fun b hb hg hq => ?_⟩
  apply (guarded_congr hk.entries hk.claims hk.leaving).mpr
  exact hg (hk.onward.queued hb hq)

theorem allowed_keeping (hi : Accounted s) (hk : Keeping E s s')
    (hE : ∀ b, E b → s.queued b = true → s.Guarded b) : (accounting S).Allowed t s s' :=
  ⟨hi.of_keeping hk hE, fun _ _ => hk.guarding, trivial⟩

theorem allowed_neutral {r : Answer i} (hi : Accounted s) (hn : i.Neutral)
    (he : exec S t i c s = some (s', r)) : (accounting S).Allowed t s s' :=
  allowed_keeping hi (exec_keeping (keeps_of_neutral hn).1 he) fun b hb =>
    ((keeps_of_neutral hn).2 b hb).elim

theorem allowed_then {s₁ : Cluster} (ha : (accounting S).Allowed t s s₁)
    (hk : Keeping (fun _ => False) s₁ s') : (accounting S).Allowed t s s' :=
  ⟨ha.inv.of_keeping hk fun _ => False.elim,
    fun u hu => (accounting S).rely_trans u (ha.others u hu) hk.guarding, trivial⟩

/-- A call that raises with its effect or without. -/
theorem allowed_raised (hi : Accounted s) (ha : (accounting S).Allowed t s v) (reached : Bool)
    (f : ℕ → Option (Raised × Bool)) :
    (accounting S).Allowed t s { if reached then v else s with raising := f } := by
  have hkeep : ∀ v : Cluster, Keeping (fun _ => False) v { v with raising := f } := fun _ =>
    keeping_of_eq rfl rfl rfl rfl rfl rfl
  cases reached with
  | true => exact allowed_then ha (hkeep v)
  | false => exact allowed_keeping hi (hkeep s) fun _ => False.elim

/-- Whatever the stream and the executions become, every queued run that was guarded is. -/
theorem allowed_moving {f : Entry → Entry} (hi : Accounted s)
    (hf : ∀ e, (f e).id = e.id ∧ (f e).bot = e.bot) (hr : s'.runs = s.runs)
    (hk : s'.cancelKey = s.cancelKey) (he : s'.entries = s.entries.map f)
    (hc : ∀ c ∈ s'.claims, ∃ e ∈ s.entries, e.id = c.entry ∧ e.bot = c.bot)
    (hg : ∀ b, s.queued b = true → s.Guarded b → s'.Guarded b)
    (hu : ∀ u, u ≠ t → (∀ c : Claim, c.thread = u → (c ∈ s'.claims ↔ c ∈ s.claims)) ∧
      (u ∈ s'.leaving ↔ u ∈ s.leaving) ∧ (u ∈ s'.handling ↔ u ∈ s.handling)) :
    (accounting S).Allowed t s s' := by
  have hq : ∀ b, s'.queued b = s.queued b := by
    intro b
    unfold Cluster.queued Cluster.status
    rw [hr]
  have hentries : ∀ e' ∈ s'.entries, ∃ e ∈ s.entries, f e = e' := by
    intro e' hm
    rw [he] at hm
    exact List.mem_map.mp hm
  refine ⟨⟨fun b hb => ?_, fun b hb => ?_, hr ▸ hi.ids, fun e' hm => ?_, fun e₁ h₁ e₂ h₂ hid => ?_,
    fun c hm => ?_⟩, fun u hne => ?_, trivial⟩
  · have hqueued : s.queued b = true := (hq b).symm.trans hb
    have hundispatched : s'.undispatched b = s.undispatched b := by
      unfold Cluster.undispatched
      rw [hr]
    rw [hundispatched]
    exact (hi.guarded b hqueued).imp id (hg b hqueued)
  · have hd := hi.cancelled b (hk ▸ hb)
    exact ⟨hr ▸ hd.1, (hq b).trans hd.2⟩
  · obtain ⟨e, hold, rfl⟩ := hentries e' hm
    rw [(hf e).1, (hf e).2, he, List.length_map, hr]
    exact hi.entries e hold
  · obtain ⟨e₁, hm₁, rfl⟩ := hentries e₁ h₁
    obtain ⟨e₂, hm₂, rfl⟩ := hentries e₂ h₂
    rw [(hf e₁).1, (hf e₂).1] at hid
    rw [(hf e₁).2, (hf e₂).2]
    exact hi.bots e₁ hm₁ e₂ hm₂ hid
  · obtain ⟨e, hm, hid, hbot⟩ := hc c hm
    exact ⟨f e, he ▸ List.mem_map_of_mem hm, (hf e).1.trans hid, (hf e).2.trans hbot⟩
  · obtain ⟨hclaims, hleaving, hhandling⟩ := hu u hne
    refine ⟨onward_of_runs hr, hclaims, hleaving, hhandling, fun b _ h hb => ?_⟩
    have hqueued : s.queued b = true := (hq b).symm.trans hb
    exact hg b hqueued (h hqueued)

end keeping

section held

/-- `x` is the one execution of its thread. -/
structure Held (x : Claim) (h : Prop) (s : Cluster) : Prop where
  claims : ∀ c : Claim, c.thread = x.thread → (c ∈ s.claims ↔ c = x)
  handling : x.thread ∈ s.handling ↔ h
  run : (s.runs x.bot).isSome = true

/-- The run of `x` has left the queue, or `x` has been turned away. -/
def Released (x : Claim) (s : Cluster) : Prop := s.Dequeued x.bot ∨ x.thread ∈ s.leaving

theorem Held.mem (hh : Held x h s) : x ∈ s.claims := (hh.claims x rfl).mpr rfl

theorem Held.eq_of_mem (hh : Held x h s) {c : Claim} (hc : c ∈ s.claims)
    (ht : c.thread = x.thread) : c = x := (hh.claims c ht).mp hc

theorem Held.guarding (hh : Held x h s) (hu : Guarding x.thread s s') : Held x h s' :=
  ⟨fun c hc => (hu.claims c hc).trans (hh.claims c hc), hu.handling.trans hh.handling,
    hu.onward.isSome hh.run⟩

theorem Released.guarding (ho : Released x s) (hu : Guarding x.thread s s') : Released x s' :=
  ho.imp hu.onward.dequeued hu.leaving.mpr

theorem Held.keeping (hh : Held x h s) (hk : Keeping E s s') : Held x h s' :=
  hh.guarding hk.guarding

theorem Released.keeping (ho : Released x s) (hk : Keeping E s s') : Released x s' :=
  ho.guarding hk.guarding

/-- Every entry that `x` executes is one of its run. -/
theorem Held.bot_eq (hi : Accounted s) (hh : Held x h s) {e : Entry} (he : e ∈ s.entries)
    (hid : e.id = x.entry) : e.bot = x.bot := by
  obtain ⟨e', he', hid', hbot'⟩ := hi.claims x hh.mem
  exact (hi.bots e he e' he' (hid.trans hid'.symm)).trans hbot'

/-- What guards a queued run besides an execution that has been released. -/
theorem Released.of_queued (ho : Released x s) (hq : s.queued x.bot = true) :
    x.thread ∈ s.leaving := by
  rcases ho with hd | hl
  · cases hd.2.symm.trans hq
  · exact hl

end held

/-- The stream with one more entry. -/
def Cluster.added (s : Cluster) (b : ℕ) : Cluster :=
  { s with entries := { id := s.entries.length, bot := b } :: s.entries }

section steps

variable (hi : Accounted s)
include hi

/-- The acknowledgement of an execution that has been released, whether it comes through or not. -/
theorem allowed_acknowledge {f : Entry → Entry} {g : ℕ → Option (Raised × Bool)}
    (hh : Held x h s) (ho : Released x s) (hf : ∀ e, (f e).id = e.id ∧ (f e).bot = e.bot)
    (hsame : ∀ e, e.id ≠ x.entry → f e = e) :
    (accounting S).Allowed x.thread s { s with
      entries := s.entries.map f, claims := s.claims.filter fun c => c.thread ≠ x.thread,
      raising := g } := by
  refine allowed_moving hi hf rfl rfl rfl ?_ ?_ ?_
  · intro c hc
    exact hi.claims c (List.mem_of_mem_filter hc)
  · intro b hq hg
    rcases hg with ⟨e, he, rfl, hack, hstands⟩ | ⟨c, hc, rfl, hl⟩
    · have hne : e.id ≠ x.entry := by
        intro hid
        have hbot : e.bot = x.bot := hh.bot_eq hi he hid
        exact hstands x hh.mem hid.symm (ho.of_queued (hbot ▸ hq))
      refine Or.inl ⟨e, List.mem_map.mpr ⟨e, he, hsame e hne⟩, rfl, hack, fun c hc => ?_⟩
      exact hstands c (List.mem_of_mem_filter hc)
    · have hne : c.thread ≠ x.thread := by
        intro ht
        obtain rfl := hh.eq_of_mem hc ht
        exact hl (ho.of_queued hq)
      exact Or.inr ⟨c, List.mem_filter.mpr ⟨hc, decide_eq_true hne⟩, rfl, hl⟩
  · intro u hu
    refine ⟨fun c hc => ⟨List.mem_of_mem_filter, fun hm => ?_⟩, Iff.rfl, Iff.rfl⟩
    exact List.mem_filter.mpr ⟨hm, decide_eq_true fun ht => hu (hc.symm.trans ht)⟩

/-- An execution is turned away; the run is not queued, or another execution goes on. -/
theorem allowed_leaving (hh : Held x h s)
    (hc : x.thread ∉ s.leaving → s.queued x.bot = true → s.Elsewhere x.thread x.bot) :
    (accounting S).Allowed x.thread s { s with leaving := x.thread :: s.leaving } := by
  refine allowed_moving (f := id) hi (fun _ => ⟨rfl, rfl⟩) rfl rfl (List.map_id _).symm hi.claims
    ?_ ?_
  · intro b hq hg
    by_cases hl : x.thread ∈ s.leaving
    · have hleaving : ∀ u, u ∈ x.thread :: s.leaving ↔ u ∈ s.leaving := by
        intro u
        simp only [List.mem_cons, or_iff_right_iff_imp]
        rintro rfl
        exact hl
      unfold Cluster.Guarded Cluster.Stands at hg ⊢
      simpa only [hleaving] using hg
    · rcases hg with ⟨e, he, rfl, hack, hstands⟩ | ⟨c, hm, rfl, hout⟩
      · by_cases hbot : e.bot = x.bot
        · obtain ⟨c, hm, hcb, hne, hout⟩ := hc hl (hbot ▸ hq)
          refine Or.inr ⟨c, hm, hcb.trans hbot.symm, fun hmem => ?_⟩
          exact (List.mem_cons.mp hmem).elim hne hout
        · refine Or.inl ⟨e, he, rfl, hack, fun c hm hid hmem => ?_⟩
          rcases List.mem_cons.mp hmem with ht | hmem
          · obtain rfl := hh.eq_of_mem hm ht
            exact hbot (hh.bot_eq hi he hid.symm)
          · exact hstands c hm hid hmem
      · by_cases ht : c.thread = x.thread
        · obtain rfl := hh.eq_of_mem hm ht
          obtain ⟨c', hm', hcb, hne, hout'⟩ := hc hl hq
          refine Or.inr ⟨c', hm', hcb, fun hmem => ?_⟩
          exact (List.mem_cons.mp hmem).elim hne hout'
        · refine Or.inr ⟨c, hm, rfl, fun hmem => ?_⟩
          exact (List.mem_cons.mp hmem).elim ht hout
  · intro u hu
    exact ⟨fun _ _ => Iff.rfl, by simp [hu], Iff.rfl⟩

theorem allowed_handling : (accounting S).Allowed t s
    { s with handling := t :: s.handling, failing := t :: s.failing } := by
  refine allowed_moving (f := id) hi (fun _ => ⟨rfl, rfl⟩) rfl rfl (List.map_id _).symm hi.claims
    ?_ ?_
  · exact fun b _ hg => hg
  · intro u hu
    exact ⟨fun _ _ => Iff.rfl, Iff.rfl, by simp [hu]⟩

/-- An execution begins with a claim of an entry. -/
theorem allowed_begin {worker entry : ℕ} (hf : Unborn t s)
    (hb : s.claim t worker entry b = some s') :
    (accounting S).Allowed t s s' ∧ Held ⟨t, worker, entry, b⟩ False s' := by
  unfold Cluster.claim at hb
  split at hb
  · rename_i hany
    obtain rfl := Option.some.inj hb
    obtain ⟨e₀, he₀, hdeliver⟩ := List.any_eq_true.mp hany
    simp only [Bool.and_eq_true, decide_eq_true_eq] at hdeliver
    obtain ⟨⟨hid₀, hbot₀⟩, -⟩ := hdeliver
    have hkeep : ∀ e : Entry,
        (if e.id = entry then { e with deliveredAt := some s.now } else e).id = e.id ∧
        (if e.id = entry then { e with deliveredAt := some s.now } else e).bot = e.bot ∧
        (if e.id = entry then { e with deliveredAt := some s.now } else e).acked = e.acked := by
      intro e
      split
      · exact ⟨rfl, rfl, rfl⟩
      · exact ⟨rfl, rfl, rfl⟩
    constructor
    · refine allowed_moving hi (fun e => ⟨(hkeep e).1, (hkeep e).2.1⟩) rfl rfl rfl ?_ ?_ ?_
      · intro c hc
        rcases List.mem_cons.mp hc with rfl | hc
        · exact ⟨e₀, he₀, hid₀, hbot₀⟩
        · exact hi.claims c hc
      · intro b' _ hg
        rcases hg with ⟨e, he, hbot, hack, hstands⟩ | ⟨c, hc, hbot, hl⟩
        · refine Or.inl ⟨_, List.mem_map_of_mem he, (hkeep e).2.1.trans hbot,
            (hkeep e).2.2.trans hack, fun c hc hid => ?_⟩
          rcases List.mem_cons.mp hc with rfl | hc
          · exact hf.leaving
          · exact hstands c hc (hid.trans (hkeep e).1)
        · exact Or.inr ⟨c, List.mem_cons_of_mem _ hc, hbot, hl⟩
      · intro u hu
        refine ⟨fun c hc => ?_, Iff.rfl, Iff.rfl⟩
        have hne : c ≠ ⟨t, worker, entry, b⟩ := by
          rintro rfl
          exact hu hc.symm
        simp [hne]
    · refine ⟨fun c hc => ?_, iff_of_false hf.handling not_false, ?_⟩
      · have hnot : c ∉ s.claims := fun hm => hf.claims c hm hc
        simp [hnot]
      · rw [← hbot₀]
        exact (hi.entries e₀ he₀).2
  · cases hb

/-- A worker dies. The entry of an execution that goes on stands, or another one goes on. -/
theorem allowed_death (hc : (unbroken S).kill t s) : (accounting S).Allowed t s (s.kill t) := by
  refine allowed_moving (f := id) hi (fun _ => ⟨rfl, rfl⟩) rfl rfl (List.map_id _).symm ?_ ?_ ?_
  · intro c hc
    exact hi.claims c (List.mem_of_mem_filter hc)
  · have hstill : ∀ e, s.Stands e → (s.kill t).Stands e := fun e hs =>
      ⟨hs.1, fun c hc => hs.2 c (List.mem_of_mem_filter hc)⟩
    have hrest : ∀ c ∈ s.claims, c.thread ≠ t → c ∈ (s.kill t).claims := fun c hm hne =>
      List.mem_filter.mpr ⟨hm, decide_eq_true hne⟩
    intro b hq hg
    rcases hg with ⟨e, he, hbot, hstands⟩ | ⟨c, hm, rfl, hl⟩
    · exact Or.inl ⟨e, he, hbot, hstill e hstands⟩
    · by_cases ht : c.thread = t
      · rcases hc c hm ht (ht ▸ hl) hq with ⟨e, he, hid, hstands⟩ | ⟨c', hm', hbot', hne', hl'⟩
        · obtain ⟨e', he', hid', hbot'⟩ := hi.claims c hm
          have hbot : e.bot = c.bot := (hi.bots e he e' he' (hid.trans hid'.symm)).trans hbot'
          exact Or.inl ⟨e, he, hbot, hstill e hstands⟩
        · exact Or.inr ⟨c', hrest c' hm' hne', hbot', hl'⟩
      · exact Or.inr ⟨c, hrest c hm ht, rfl, hl⟩
  · intro u hu
    refine ⟨fun c hc => ⟨List.mem_of_mem_filter, fun hm => ?_⟩, Iff.rfl, Iff.rfl⟩
    exact List.mem_filter.mpr ⟨hm, decide_eq_true fun ht => hu (hc.symm.trans ht)⟩

/-- A new entry stands. -/
theorem allowed_added (hb : (s.runs b).isSome = true) :
    (accounting S).Allowed t s (s.added b) ∧ (s.added b).Guarded b := by
  have hmono : ∀ b', s.Guarded b' → (s.added b).Guarded b' := by
    rintro b' (⟨e, he, hbot, hstands⟩ | hclaim)
    · exact Or.inl ⟨e, List.mem_cons_of_mem _ he, hbot, hstands⟩
    · exact Or.inr hclaim
  have hlength : (s.added b).entries.length = s.entries.length + 1 := rfl
  refine ⟨⟨⟨fun b' hq => (hi.guarded b' hq).imp id (hmono b'), hi.cancelled, hi.ids, fun e he => ?_,
    fun e₁ h₁ e₂ h₂ hid => ?_, fun c hc => ?_⟩, fun u _ => ?_, trivial⟩, ?_⟩
  · rw [hlength]
    rcases List.mem_cons.mp he with rfl | he
    · exact ⟨Nat.lt_succ_self _, hb⟩
    · exact ⟨Nat.lt_succ_of_lt (hi.entries e he).1, (hi.entries e he).2⟩
  · rcases List.mem_cons.mp h₁ with rfl | h₁
    · rcases List.mem_cons.mp h₂ with rfl | h₂
      · rfl
      · have hlt := (hi.entries e₂ h₂).1
        simp only at hid
        omega
    · rcases List.mem_cons.mp h₂ with rfl | h₂
      · have hlt := (hi.entries e₁ h₁).1
        simp only at hid
        omega
      · exact hi.bots e₁ h₁ e₂ h₂ hid
  · obtain ⟨e, he, hid, hbot⟩ := hi.claims c hc
    exact ⟨e, List.mem_cons_of_mem _ he, hid, hbot⟩
  · exact ⟨onward_of_runs rfl, fun _ _ => Iff.rfl, Iff.rfl, Iff.rfl, fun b' _ hg hq =>
      hmono b' (hg hq)⟩
  · refine Or.inl ⟨_, List.mem_cons_self, rfl, rfl, fun c hc hid => ?_⟩
    obtain ⟨e, he, hid', -⟩ := hi.claims c hc
    have hlt := (hi.entries e he).1
    simp only at hid
    omega

theorem allowed_requested (hd : s.Dequeued b) : (accounting S).Allowed t s
    { s with cancelKey := Function.update s.cancelKey b true } := by
  refine ⟨⟨hi.guarded, fun b' hb' => ?_, hi.ids, hi.entries, hi.bots, hi.claims⟩, fun u _ => ?_,
    trivial⟩
  · by_cases hb : b' = b
    · subst hb
      exact hd
    · have hkey : Function.update s.cancelKey b true b' = true := hb'
      rw [Function.update_of_ne hb] at hkey
      exact hi.cancelled b' hkey
  · exact ⟨onward_of_runs rfl, fun _ _ => Iff.rfl, Iff.rfl, Iff.rfl, fun _ _ hg => hg⟩

/-- A new run is still to be dispatched; all else that the environment does leaves the stream
alone. -/
theorem accounted_env {e : World} (he : e.step s = some s') :
    Accounted s' ∧ ∀ u, Guarding u s s' := by
  have hkeep : Keeping (fun _ => False) s s' → Accounted s' ∧ ∀ u, Guarding u s s' := fun hk =>
    ⟨hi.of_keeping hk fun _ => False.elim, fun _ => hk.guarding⟩
  cases e with
  | create run =>
    have honward := step_onward he
    simp only [World.step] at he
    split at he
    · rename_i hnew
      obtain ⟨-, hpending, habsent, -⟩ := hnew
      obtain rfl := Option.some.inj he
      have hne : ∀ b, (s.runs b).isSome = true → b ≠ run.id := by
        rintro b hb rfl
        rw [Option.isNone_iff_eq_none.mp habsent] at hb
        cases hb
      have hsame : ∀ b, b ≠ run.id → Function.update s.runs run.id (some run) b = s.runs b :=
        fun b hb => Function.update_of_ne hb _ _
      refine ⟨⟨fun b hq => ?_, fun b hb => honward.dequeued (hi.cancelled b hb),
        fun b run' hrun => ?_,
        fun e he => ⟨(hi.entries e he).1, honward.isSome (hi.entries e he).2⟩, hi.bots, hi.claims⟩,
        fun u => ⟨honward.mono fun _ => False.elim, fun _ _ => Iff.rfl, Iff.rfl, Iff.rfl,
          fun b hb hg hq => hg (honward.queued hb hq)⟩⟩
      · by_cases hb : b = run.id
        · subst hb
          refine Or.inl ((Option.any_eq_true _ _).mpr ⟨run, Function.update_self _ _ _, ?_⟩)
          exact decide_eq_true hpending
        · obtain ⟨run', hrun', hstatus⟩ := run_of_queued hq
          have hrun : s.runs b = some run' := (hsame b hb).symm.trans hrun'
          have hqueued : s.queued b = true :=
            honward.queued (Option.isSome_iff_exists.mpr ⟨run', hrun⟩) hq
          refine (hi.guarded b hqueued).imp (fun hu => ?_) id
          exact (undispatched_of_onward honward hu).elim id False.elim
      · have hupdate : Function.update s.runs run.id (some run) b = some run' := hrun
        by_cases hb : b = run.id
        · subst hb
          rw [Function.update_self] at hupdate
          obtain rfl := Option.some.inj hupdate
          rfl
        · exact hi.ids b run' ((hsame b hb).symm.trans hupdate)
    · cases he
  | write b run =>
    simp only [World.step] at he
    split at he
    · cases he
    · rename_i old hold
      split at he
      · rename_i hw
        obtain rfl := Option.some.inj he
        exact hkeep (keeping_setRun hold hw.follows (Or.inl hw.dispatch))
      · cases he
  | raise t e reached | beat t b | endJob b | removeJob b =>
    simp only [World.step] at he
    split at he
    · obtain rfl := Option.some.inj he
      exact hkeep (keeping_of_eq rfl rfl rfl rfl rfl rfl)
    · cases he
  | expireCancel b =>
    obtain rfl := Option.some.inj he
    refine hkeep ⟨onward_of_runs rfl, fun _ => id, rfl, rfl, rfl, rfl, fun b' hb' => ?_⟩
    by_cases hb : b' = b
    · subst hb
      have hkey : Function.update s.cancelKey b' false b' = true := hb'
      rw [Function.update_self] at hkey
      cases hkey
    · exact (Function.update_of_ne hb _ _).symm.trans hb'
  | sigterm worker | elapse d | expireBeat b =>
    obtain rfl := Option.some.inj he
    exact hkeep (keeping_of_eq rfl rfl rfl rfl rfl rfl)

end steps

end Fakery.Worker

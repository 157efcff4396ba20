import Fakery.Jobs.Runtimes

/-! A spawn adopts no job of another bot, however many spawns there are and whatever becomes of
the jobs. -/
namespace Fakery.Jobs
open Fakery.Bots Fakery.Concurrent Fakery.Labels Fakery.Meetings Fakery.Runtime

variable {t : ℕ} {id : BotId} {s s' : Scene} {i : Call} {c : Outcome} {α : Type}

/-- The job that some worker builds for a bot. -/
def Manifest.Of (id : BotId) (m : Manifest) : Prop :=
  ∃ image inNamespace meetingMaxMinutes,
    m = buildBotJob id.text image inNamespace meetingMaxMinutes

/-- No job of another bot than `id`. -/
def Manifest.Suits (id : BotId) (m : Manifest) : Prop :=
  ∀ other, m.bot = some other → other = id.text ∧ m.Of id

theorem Manifest.Of.bot {m : Manifest} (h : m.Of id) : m.bot = some id.text := by
  obtain ⟨image, inNamespace, meetingMaxMinutes, rfl⟩ := h
  rfl

theorem Manifest.Of.name {m : Manifest} (h : m.Of id) : m.name = botJobName id.text := by
  obtain ⟨image, inNamespace, meetingMaxMinutes, rfl⟩ := h
  rfl

/-- A job of a bot is built for that bot and has its name, and what was adopted suits the spawn. -/
structure Inv (s : Scene) : Prop where
  named : ∀ key job other, s.jobs key = some job → job.manifest.bot = some other →
    ∃ id, job.manifest.Of id ∧ key.2 = botJobName id.text
  adopted : ∀ x ∈ s.adopted, x.2.Suits x.1

/-- What is found under the name of a bot is the job of no other bot. -/
theorem Inv.suits {inNamespace : String} {job : Job} (h : Inv s)
    (hjob : s.jobs (inNamespace, botJobName id.text) = some job) : job.manifest.Suits id := by
  intro other hother
  obtain ⟨id', hof, hname⟩ := h.named _ job other hjob hother
  have hsame : id = id' := botJobName_text_inj.mp hname
  subst hsame
  exact ⟨Option.some.inj (hother.symm.trans hof.bot), hof⟩

section steps

/-- The calls that a spawn makes of its own accord. -/
def Proper (id : BotId) : Call → Prop
  | .createJob _ m => m.Of id
  | .adopted botId existing => existing.Suits botId
  | _ => True

theorem inv_put {key : String × Text} {job : Option Job} (h : Inv s)
    (hjob : ∀ job' other, job = some job' → job'.manifest.bot = some other →
      ∃ id, job'.manifest.Of id ∧ key.2 = botJobName id.text) : Inv (s.put key job) := by
  refine ⟨fun key' job' other hkey hother => ?_, h.adopted⟩
  by_cases heq : key' = key
  · subst heq
    rw [Scene.put_self] at hkey
    exact hjob job' other hkey hother
  · rw [Scene.put_of_ne s job heq] at hkey
    exact h.named key' job' other hkey hother

theorem inv_effect (h : Inv s) (hi : Proper id i) : Inv (effect i c s).1 := by
  cases i with
  | createJob inNamespace m =>
    simp only [effect]
    split
    · exact h
    · apply inv_put h
      rintro _ other ⟨⟩ hother
      exact ⟨id, hi, hi.name⟩
  | adopted botId existing =>
    refine ⟨h.named, fun x hx => ?_⟩
    rcases List.mem_cons.mp hx with rfl | hx
    · exact hi
    · exact h.adopted x hx
  | deleteJob inNamespace name =>
    simp only [effect]
    split
    · exact h
    · exact inv_put h nofun
  | getJob | readJobStatus | closeJobs | sleep | attend => exact h

/-- What a call does: it raises and has no effect, or has its effect. -/
theorem exec_cases {r : Answer i} (h : exec i c s = some (s', r)) :
    (s' = s ∧ ∃ e, r = .error e) ∨
      s' = (effect i c s).1 ∧ (r = (effect i c s).2 ∨ ∃ e, r = .error e) := by
  unfold exec at h
  apply raised_cases (c.raised.filter fun _ => i.raises)
  rw [← h]
  cases c.raised.filter fun _ => i.raises <;> rfl

theorem inv_exec {r : Answer i} (h : Inv s) (hi : Proper id i)
    (he : exec i c s = some (s', r)) : Inv s' := by
  rcases exec_cases he with ⟨rfl, -⟩ | ⟨rfl, -⟩
  · exact h
  · exact inv_effect h hi

theorem inv_world {w : World} (h : Inv s) (hw : w.step s = some s') : Inv s' := by
  cases w with
  | createOrGet uuid4 =>
    simp only [World.step] at hw
    split_ifs at hw
    cases Option.some.inj hw
    exact ⟨h.named, h.adopted⟩
  | apply inNamespace m =>
    simp only [World.step] at hw
    split_ifs at hw with hnone
    cases Option.some.inj hw
    apply inv_put h
    rintro _ other ⟨⟩ hother
    cases hnone.1.symm.trans hother
  | report key status =>
    obtain ⟨job, hjob, rfl⟩ := Option.map_eq_some_iff.mp hw
    apply inv_put h
    rintro _ other ⟨⟩ hother
    exact h.named key job other hjob hother
  | remove key =>
    cases Option.some.inj hw
    exact inv_put h nofun

end steps

section programs

/-- Nothing that the other threads do breaks what a spawn knows. -/
def protocol : Protocol jobRuntime where
  inv := Inv
  rely _ _ _ := True
  rely_refl _ _ := trivial
  rely_trans _ _ _ _ _ _ := trivial

variable {k : Spawn} {S : Settings} {p : Plan} {Q : α → Scene → Prop}

theorem allowed_inv (h : Inv s') : protocol.Allowed t s s' := ⟨h, fun _ _ => trivial, trivial⟩

variable (id) in
theorem wp_proper {q : Prog Call Answer α} (hq : q.Uses (Proper id)) :
    protocol.wp t k q (fun _ _ => True) s := by
  refine Protocol.wp_frame hq trivial (fun _ _ _ _ _ => trivial) fun i c s s' r hi hs _ _ he => ?_
  exact ⟨allowed_inv (inv_exec hs hi he), trivial⟩

theorem uses_perform {P : Call → Prop} (h : P i) : (perform i).run.Uses P := ⟨h, fun _ => trivial⟩

theorem uses_call (i : Runtime.Call) : (call i).run.Uses (Proper id) := uses_perform trivial

theorem uses_waitTerminal (inNamespace : String) (name : Text) (n : ℕ) :
    (waitTerminal inNamespace name n).run.Uses (Proper id) := by
  induction n with
  | zero => trivial
  | succ n ih =>
    refine Task.uses_bind (uses_perform trivial) fun found => ?_
    cases found with
    | none => trivial
    | some status =>
      dsimp only
      split_ifs
      · trivial
      · trivial
      · exact Task.uses_bind (uses_perform trivial) fun _ => ih

/-- What the server answers about the name of a bot suits a spawn of that bot. -/
theorem suits_found {inNamespace : String} {existing : Manifest} (h : Inv s)
    (he : exec (.getJob inNamespace (botJobName id.text)) c s = some (s', .ok (some existing))) :
    existing.Suits id := by
  rcases exec_cases he with ⟨-, e, hr⟩ | ⟨-, hr | ⟨e, hr⟩⟩
  · cases hr
  · obtain ⟨job, hjob, rfl⟩ := Option.map_eq_some_iff.mp (Except.ok.inj hr).symm
    exact h.suits hjob
  · cases hr

theorem wp_createOrAdopt : protocol.wp t k (createOrAdopt S id).run (fun _ _ => True) s := by
  refine Protocol.wp_task_bind.mpr (Protocol.wp_ask _ |>.mpr fun s₁ _ hi _ c s₂ r he => ?_)
  have hproper : Proper id (.getJob S.podNamespace (botJobName id.text)) := trivial
  refine ⟨allowed_inv (inv_exec hi hproper he), ?_⟩
  cases r with
  | error e => trivial
  | ok found =>
    cases found with
    | none => exact wp_proper id (uses_perform ⟨_, _, _, rfl⟩)
    | some existing => exact wp_proper id (uses_perform (suits_found hi he))

theorem wp_supervise : protocol.wp t k (supervise S id p).run (fun _ _ => True) s := by
  refine Protocol.wp_task_bind.mpr (Protocol.wp_mono wp_createOrAdopt fun r s₁ _ => ?_)
  cases r with
  | error e => trivial
  | ok u => exact wp_proper id (uses_waitTerminal _ _ _)

theorem wp_spawn : protocol.wp t k (spawn S id p).run (fun _ _ => True) s := by
  have hclose : ((perform .closeJobs).rescue fun _ => pure ()).run.Uses (Proper id) :=
    Task.uses_rescue (uses_perform trivial) fun _ => trivial
  refine Protocol.wp_task_bind.mpr (Protocol.wp_ensuring.mpr ?_)
  refine Protocol.wp_mono wp_supervise fun r s₁ _ => Protocol.wp_mono (wp_proper id hclose) ?_
  intro closed s₂ _
  cases closed with
  | error e => trivial
  | ok u =>
    cases r with
    | error e => trivial
    | ok result =>
      exact wp_proper id (Worker.uses_settleJob (fun i _ => uses_call i) (uses_perform trivial)
        (uses_perform trivial) result)

theorem sound : protocol.Sound where
  idle _ _ := trivial
  final _ _ := trivial
  start hi _ _ hb := by
    obtain ⟨-, hsame⟩ := Option.ite_none_right_eq_some.mp hb
    cases Option.some.inj hsame
    exact ⟨allowed_inv hi, Protocol.wp_bind.mpr (Protocol.wp_mono wp_spawn fun _ _ _ => trivial)⟩
  kill hi _ := ⟨allowed_inv hi, trivial⟩
  env hi _ hw := ⟨inv_world hi hw, fun _ => trivial⟩

theorem inv_run {es : List (Event Spawn Outcome World)} {σ : jobRuntime.State}
    (h : jobRuntime.run (jobRuntime.init {}) es = some σ) : Inv σ.shared := by
  have hinit : protocol.Holds (jobRuntime.init {}) :=
    Protocol.holds_init ⟨nofun, nofun⟩ fun _ => trivial
  exact (sound.run hinit (Machine.free_meets _ es) h).inv

end programs

/-- Names of jobs are labels, those of two minted ids differ, and so no spawn adopts the job of
another bot. -/
theorem job_names_apart :
    (∀ botId : Text, IsLabel (botJobName botId)) ∧
    (∀ id id' : BotId, id.text ≠ id'.text → botJobName id.text ≠ botJobName id'.text) ∧
    ∀ es σ, jobRuntime.run (jobRuntime.init {}) es = some σ →
      ∀ id existing, (id, existing) ∈ σ.shared.adopted →
        ∀ other, existing.bot = some other → other = id.text ∧ existing.Of id := by
  refine ⟨isLabel_botJobName, fun id id' hne heq => ?_, fun es σ h id existing hadopted => ?_⟩
  · rw [botJobName_text_inj.mp heq] at hne
    exact hne rfl
  · exact (inv_run h).adopted (id, existing) hadopted

-- Two spawns of one bot: the second one finds the job that the first one has created.
example : ((jobRuntime.run (jobRuntime.init {})
      [.env (.createOrGet 7), .start 0 ⟨{}, mint 7, {}⟩, .start 1 ⟨{}, mint 7, {}⟩,
        .step 0 {}, .step 0 {}, .step 1 {}, .step 1 {}]).map
    fun σ => σ.shared.adopted.map Prod.fst) = some [mint 7] := by decide

end Fakery.Jobs

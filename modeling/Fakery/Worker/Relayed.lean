import Fakery.Worker.Relay

/-! What the passes of the relay make of the line of pending runs and of the stream. -/
namespace Fakery.Worker.Relay
open Fakery.Bots Fakery.Queue

variable {p : Pass} {ps : List Pass} {s : Table} {run : BotRun} {rows runs : List BotRun}

/-- The place of a run in the line: when it was created, and its identifier. -/
def place (run : BotRun) : ℕ × ℕ := (run.createdAt, run.id)

/-- Whose `xadd` does not raise. -/
def Pass.good (p : Pass) (k : ℕ × ℕ) : Bool :=
  match p.add k.2 with
  | .added => true
  | .raised _ _ => false

/-- Whose entry is in the stream afterwards. -/
def Pass.stores (p : Pass) (bot : ℕ) : Bool :=
  match p.add bot with
  | .added => true
  | .raised _ stored => stored

/-- The pending runs and the stream, and nothing else. -/
structure Line where
  waiting : List (ℕ × ℕ)
  stream : List ℕ

/-- A pass over the line: what was added in its first batch leaves it with the commit. -/
def Line.pass (line : Line) (p : Pass) : Line where
  waiting := if p.commits then Queue.pass DISPATCH_RELAY_BATCH p.good line.waiting else line.waiting
  stream := line.stream ++ ((line.waiting.take DISPATCH_RELAY_BATCH).map Prod.snd).filter p.stores

def Table.line (s : Table) : Line := ⟨(waiting s.rows).map place, s.stream⟩

section line

theorem relayEach_ids (runs : List BotRun) :
    (p.relayEach runs).1 = (runs.map BotRun.id).filter p.stores := by
  induction runs with
  | nil => rfl
  | cons run runs ih =>
    simp only [List.map_cons, List.filter_cons, Pass.relayEach, ← ih]
    cases hadd : p.add run.id with
    | added => simp [Pass.stores, hadd]
    | raised error stored =>
      cases stored with
      | false => simp [Pass.stores, hadd]
      | true => simp [Pass.stores, hadd]

theorem mem_waiting : run ∈ waiting rows ↔ run ∈ rows ∧ isPending run = true := by
  rw [waiting, List.mem_insertionSort, List.mem_filter]

/-- A place in the line is that of one run only. -/
theorem place_inj {other : BotRun} (hkey : (rows.map BotRun.id).Nodup) (hrun : run ∈ rows)
    (hother : other ∈ rows) (h : place run = place other) : run = other :=
  List.inj_on_of_nodup_map hkey hrun hother (congrArg Prod.snd h)

theorem place_row : place (p.row runs run) = place run := by
  unfold place
  rw [p.row_createdAt, p.row_id]

/-- What is added and committed is pending no more. -/
theorem isPending_row (hpending : isPending run = true) :
    isPending (p.row runs run) = (!decide (run ∈ runs) || !p.good (place run)) := by
  unfold Pass.row
  split_ifs with hin
  · have hstatus := BotRun.flushed_column (g := BotRun.status) (fun _ _ => rfl) run
      (p.moment run.id) (p.relayed run)
    have hdispatch := BotRun.flushed_column (g := BotRun.dispatchStatus) (fun _ _ => rfl) run
      (p.moment run.id) (p.relayed run)
    unfold isPending at hpending ⊢
    rw [hstatus, hdispatch]
    unfold Pass.relayed Pass.good place
    cases hadd : p.add run.id with
    | added => simp [hin, hadd]
    | raised error stored => simpa [hin, hadd] using hpending
  · simp [hpending, hin]

theorem row_of_not_mem (h : run ∉ runs) : p.row runs run = run := if_neg h

/-- The line is in order, and no place is in it twice. -/
theorem sorted_line (hkey : (rows.map BotRun.id).Nodup) : ((waiting rows).map place).Pairwise
    fun k l => k.1 < l.1 ∨ k.1 = l.1 ∧ k.2 < l.2 := by
  have htotal : ∀ a b : BotRun, Earlier a b ∨ Earlier b a := by
    intro a b
    unfold Earlier
    omega
  have htrans : ∀ a b c : BotRun, Earlier a b → Earlier b c → Earlier a c := by
    intro a b c
    unfold Earlier
    omega
  have : Std.Total Earlier := ⟨htotal⟩
  have : IsTrans BotRun Earlier := ⟨htrans⟩
  have hsort := List.pairwise_insertionSort Earlier (rows.filter isPending)
  have hids : ((waiting rows).map BotRun.id).Nodup :=
    ((List.perm_insertionSort _ _).map _).nodup_iff.mpr ((List.filter_sublist.map _).nodup hkey)
  refine List.pairwise_map.mpr ((hsort.and (List.pairwise_map.mp hids)).imp fun {a b} h => ?_)
  obtain ⟨hle, hne⟩ := h
  unfold Earlier at hle
  unfold place
  dsimp only
  omega

theorem nodup_line (hkey : (rows.map BotRun.id).Nodup) : ((waiting rows).map place).Nodup :=
  (sorted_line hkey).imp fun {k l} h heq => by
    rw [heq] at h
    omega

/-- A committed pass is a pass over the line. -/
theorem waiting_rows (hkey : (rows.map BotRun.id).Nodup) :
    (waiting (rows.map (p.row ((waiting rows).take DISPATCH_RELAY_BATCH)))).map place =
      pass DISPATCH_RELAY_BATCH p.good ((waiting rows).map place) := by
  let runs := (waiting rows).take DISPATCH_RELAY_BATCH
  let stays : ℕ × ℕ → Bool := fun k =>
    !decide (k ∈ ((waiting rows).map place).take DISPATCH_RELAY_BATCH) || !p.good k
  have hkey' : ((rows.map (p.row runs)).map BotRun.id).Nodup := by rwa [p.map_row_id]
  have hruns : ∀ run ∈ runs, run ∈ rows ∧ isPending run = true := fun run hrun =>
    mem_waiting.mp (List.mem_of_mem_take hrun)
  have hin : ∀ run ∈ rows, decide (place run ∈ ((waiting rows).map place).take
      DISPATCH_RELAY_BATCH) = decide (run ∈ runs) := by
    intro run hrun
    rw [← List.map_take, decide_eq_decide, List.mem_map]
    constructor
    · rintro ⟨other, hother, heq⟩
      exact place_inj hkey (hruns other hother).1 hrun heq ▸ hother
    · exact fun hmem => ⟨run, hmem, rfl⟩
  have hpending : ∀ run ∈ rows, isPending (p.row runs run) =
      (isPending run && stays (place run)) := by
    intro run hrun
    cases hp : isPending run with
    | true => simp only [isPending_row hp, stays, hin run hrun, Bool.true_and]
    | false =>
      have hout : run ∉ runs := fun hmem => by cases hp.symm.trans (hruns run hmem).2
      rw [row_of_not_mem hout, hp, Bool.false_and]
  have hfilter : ((rows.map (p.row runs)).filter isPending).map place =
      ((rows.filter isPending).map place).filter stays := by
    rw [List.filter_map, List.map_map, List.filter_map, List.filter_filter]
    have hplace : place ∘ p.row runs = place := funext fun run => place_row
    rw [hplace]
    congr 1
    refine List.filter_congr fun run hrun => ?_
    rw [Function.comp_apply, Function.comp_apply, hpending run hrun, Bool.and_comm]
  have hperm : ((waiting (rows.map (p.row runs))).map place).Perm
      (((waiting rows).map place).filter stays) := by
    have hafter := (List.perm_insertionSort Earlier ((rows.map (p.row runs)).filter isPending)).map
      place
    rw [hfilter] at hafter
    have hbefore := ((List.perm_insertionSort Earlier (rows.filter isPending)).map place).filter
      stays
    exact hafter.trans hbefore.symm
  have hpass : pass DISPATCH_RELAY_BATCH p.good ((waiting rows).map place) =
      ((waiting rows).map place).filter stays :=
    pass_eq_filter_of (nodup_line hkey) fun k => by simp [stays]
  rw [hpass]
  refine hperm.eq_of_pairwise (fun k l _ _ hkl hlk => ?_) (sorted_line hkey')
    ((sorted_line hkey).filter _)
  omega

/-- The pass over the table is the pass over the line. -/
theorem line_relayQueued (p : Pass) (s : Table) : (relayQueued p s).1.line = s.line.pass p := by
  have hids : (p.relayEach ((waiting s.rows).take DISPATCH_RELAY_BATCH)).1 =
      ((s.line.waiting.take DISPATCH_RELAY_BATCH).map Prod.snd).filter p.stores := by
    rw [relayEach_ids, Table.line, ← List.map_take, List.map_map]
    rfl
  unfold relayQueued Line.pass
  dsimp only
  rw [← hids]
  split_ifs with hcommits
  · unfold Table.line
    rw [waiting_rows s.key]
  · rfl

theorem line_relayAll (ps : List Pass) (s : Table) :
    (relayAll ps s).line = ps.foldl Line.pass s.line := by
  induction ps generalizing s with
  | nil => rfl
  | cons p ps ih =>
    rw [relayAll, List.foldl_cons, List.foldl_cons, ← line_relayQueued]
    exact ih _

end line

section runs

/-- A row that is not pending is left alone. -/
theorem mem_relayQueued (hrun : run ∈ s.rows) (hpending : isPending run = false) :
    run ∈ (relayQueued p s).1.rows := by
  unfold relayQueued
  dsimp only
  split_ifs
  · have hout : run ∉ (waiting s.rows).take DISPATCH_RELAY_BATCH := fun hmem => by
      cases hpending.symm.trans (mem_waiting.mp (List.mem_of_mem_take hmem)).2
    exact List.mem_map.mpr ⟨run, hrun, row_of_not_mem hout⟩
  · exact hrun

theorem mem_relayAll (hrun : run ∈ s.rows) (hpending : isPending run = false) :
    run ∈ (relayAll ps s).rows := by
  induction ps generalizing s with
  | nil => exact hrun
  | cons p ps ih => exact ih (mem_relayQueued hrun hpending)

theorem stream_relayQueued : s.stream <+: (relayQueued p s).1.stream := by
  unfold relayQueued
  dsimp only
  split_ifs
  · exact List.prefix_append _ _
  · exact List.prefix_append _ _

theorem stream_relayAll : s.stream <+: (relayAll ps s).stream := by
  induction ps generalizing s with
  | nil => exact List.prefix_refl _
  | cons p ps ih => exact stream_relayQueued.trans ih

/-- After a pass a run is still pending, or it is enqueued and in the stream. -/
theorem pending_or_enqueued (hrun : run ∈ s.rows) (hpending : isPending run = true) :
    ∃ run' ∈ (relayQueued p s).1.rows, run'.id = run.id ∧ (isPending run' = true ∨
      isPending run' = false ∧ run'.dispatchStatus = "enqueued" ∧
        run.id ∈ (relayQueued p s).1.stream) := by
  let runs := (waiting s.rows).take DISPATCH_RELAY_BATCH
  unfold relayQueued
  dsimp only
  split_ifs
  · refine ⟨p.row runs run, List.mem_map.mpr ⟨run, hrun, rfl⟩, p.row_id runs run, ?_⟩
    cases hrow : isPending (p.row runs run) with
    | true => exact .inl rfl
    | false =>
      rw [isPending_row hpending, Bool.or_eq_false_iff, Bool.not_eq_false', Bool.not_eq_false',
        decide_eq_true_eq] at hrow
      obtain ⟨hin, hgood⟩ := hrow
      have hadd : p.add run.id = .added := by
        unfold Pass.good place at hgood
        cases hadd : p.add run.id with
        | added => rfl
        | raised error stored => simp [hadd] at hgood
      refine .inr ⟨rfl, ?_, ?_⟩
      · rw [Pass.row, if_pos hin, BotRun.flushed_column (g := BotRun.dispatchStatus) fun _ _ => rfl]
        simp [Pass.relayed, hadd]
      · rw [relayEach_ids, List.mem_append, List.mem_filter, List.mem_map]
        exact .inr ⟨⟨run, hin, rfl⟩, by simp [Pass.stores, hadd]⟩
  · exact ⟨run, hrun, rfl, .inl hpending⟩

theorem pending_or_enqueued_all (hrun : run ∈ s.rows) (hpending : isPending run = true) :
    ∃ run' ∈ (relayAll ps s).rows, run'.id = run.id ∧ (isPending run' = true ∨
      run'.dispatchStatus = "enqueued" ∧ run.id ∈ (relayAll ps s).stream) := by
  induction ps generalizing s run with
  | nil => exact ⟨run, hrun, rfl, .inl hpending⟩
  | cons p ps ih =>
    obtain ⟨next, hnext, hid, hstill | ⟨hgone, henqueued, hstream⟩⟩ :=
      pending_or_enqueued (p := p) hrun hpending
    · obtain ⟨run', hrun', hid', hend⟩ := ih hnext hstill
      rw [hid] at hid' hend
      exact ⟨run', hrun', hid', hend⟩
    · have hrow : next ∈ (relayAll ps (relayQueued p s).1).rows := mem_relayAll hnext hgone
      have hgrown : (relayQueued p s).1.stream <+: (relayAll ps (relayQueued p s).1).stream :=
        stream_relayAll
      exact ⟨next, hrow, hid, .inr ⟨henqueued, hgrown.subset hstream⟩⟩

/-- A pass in which nothing raises takes a batch off the line. -/
theorem Line.pass_calm (line : Line) (hcommits : p.commits = true)
    (hadd : ∀ bot, p.add bot = .added) : line.pass p = ⟨line.waiting.drop DISPATCH_RELAY_BATCH,
      line.stream ++ (line.waiting.take DISPATCH_RELAY_BATCH).map Prod.snd⟩ := by
  have hgood : ∀ k, p.good k = true := fun k => by simp [Pass.good, hadd]
  have hstores : ∀ bot, p.stores bot = true := fun bot => by simp [Pass.stores, hadd]
  unfold Line.pass
  rw [if_pos hcommits, List.filter_eq_self.mpr fun bot _ => hstores bot, Queue.pass]
  simp [hgood]

theorem Line.passes_calm (line : Line)
    (hcalm : ∀ p ∈ ps, p.commits = true ∧ ∀ bot, p.add bot = .added) :
    ps.foldl Line.pass line = ⟨line.waiting.drop (DISPATCH_RELAY_BATCH * ps.length),
      line.stream ++ (line.waiting.take (DISPATCH_RELAY_BATCH * ps.length)).map Prod.snd⟩ := by
  induction ps generalizing line with
  | nil => simp
  | cons p ps ih =>
    obtain ⟨hcommits, hadd⟩ := hcalm p List.mem_cons_self
    rw [List.foldl_cons, ih _ fun q hq => hcalm q (List.mem_cons_of_mem p hq),
      line.pass_calm hcommits hadd, List.length_cons, Nat.mul_succ,
      Nat.add_comm _ DISPATCH_RELAY_BATCH]
    dsimp only
    rw [List.drop_drop, List.append_assoc, ← List.map_append, ← List.take_add]

/-- Whatever the calls and the commits of the passes do: a pass is one over the line of pending
runs, which its committed additions leave in their order while all others keep their places; a run
is never lost, but pending still or enqueued and in the stream; rows that are not pending are left
alone. Passes in which nothing raises add the oldest runs, in their order and each of them once. -/
theorem relay_passes (ps : List Pass) (s : Table) :
    (relayAll ps s).line = ps.foldl Line.pass s.line ∧
    (∀ run ∈ s.rows, isPending run = true → ∃ run' ∈ (relayAll ps s).rows, run'.id = run.id ∧
      (isPending run' = true ∨
        run'.dispatchStatus = "enqueued" ∧ run.id ∈ (relayAll ps s).stream)) ∧
    (∀ run ∈ s.rows, isPending run = false → run ∈ (relayAll ps s).rows) ∧
    ((∀ p ∈ ps, p.commits = true ∧ ∀ bot, p.add bot = .added) →
      (waiting (relayAll ps s).rows).map place =
        ((waiting s.rows).map place).drop (DISPATCH_RELAY_BATCH * ps.length) ∧
      (relayAll ps s).stream = s.stream ++
        ((waiting s.rows).take (DISPATCH_RELAY_BATCH * ps.length)).map BotRun.id) := by
  refine ⟨line_relayAll ps s, fun run hrun hp => pending_or_enqueued_all hrun hp,
    fun run hrun hp => mem_relayAll hrun hp, fun hcalm => ?_⟩
  have hline := (line_relayAll ps s).trans (s.line.passes_calm hcalm)
  refine ⟨congrArg Line.waiting hline, (congrArg Line.stream hline).trans ?_⟩
  unfold Table.line
  dsimp only
  rw [← List.map_take, List.map_map]
  rfl

end runs

end Fakery.Worker.Relay

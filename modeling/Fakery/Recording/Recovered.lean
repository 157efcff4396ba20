import Fakery.Recording.Finalizer
import Mathlib.Tactic.SplitIfs

/-! The candidates as a queue: a pass takes the recoverable ones out of its first batch. -/
namespace Fakery.Recording.Finalizer
open Fakery.Bots Fakery.Queue Fakery.Storage

variable {F : Finalizer} {run run' : BotRun} {rows batch : List BotRun} {clock : ℕ → ℕ}
  {clocks : List (ℕ → ℕ)}

section pass

/-- What becomes of a run in a pass that deals with a batch. -/
def dealt (F : Finalizer) (clock : ℕ → ℕ) (batch : List BotRun) (run : BotRun) : BotRun :=
  if run ∈ batch then F.settled clock run else run

theorem dealt_id : (F.dealt clock batch run).id = run.id := by
  unfold dealt
  split_ifs
  · exact settled_id
  · rfl

theorem map_dealt_id : (rows.map (F.dealt clock batch)).map BotRun.id = rows.map BotRun.id := by
  rw [List.map_map]
  exact List.map_congr_left fun _ _ => dealt_id

theorem store_eq {uri : Uri} {recording : Bytes} {checksum : String}
    (hkey : (rows.map BotRun.id).Nodup) (hmem : run ∈ rows)
    (h : F.recovery run = some (uri, recording, checksum)) :
    F.store clock run.id uri recording checksum rows = rows.map (F.dealt clock [run]) := by
  refine List.map_congr_left fun other hother => ?_
  by_cases he : other = run
  · subst he
    simp [dealt, settled, h]
  · have hid : other.id ≠ run.id := fun hid =>
      he (List.inj_on_of_nodup_map hkey hother hmem hid)
    simp [dealt, he, hid]

/-- The batch is dealt with one by one. -/
theorem dealt_cons (hgone : F.settled clock run = run ∨ F.settled clock run ∉ batch) (other : BotRun) :
    F.dealt clock batch (F.dealt clock [run] other) = F.dealt clock (run :: batch) other := by
  by_cases he : other = run
  · rcases hgone with hsame | hout
    · simp [dealt, he, hsame]
    · simp [dealt, he, hout]
  · simp [dealt, he]

theorem recoverEach_eq (hkey : (rows.map BotRun.id).Nodup) (hnodup : batch.Nodup)
    (hbatch : ∀ run ∈ batch, run ∈ rows ∧ isCandidate run = true) :
    (F.recoverEach clock (batch.filterMap fun run =>
      run.checkpointManifestUri.map fun uri => (run.id, uri)) rows).1 =
        rows.map (F.dealt clock batch) := by
  induction batch generalizing rows with
  | nil =>
    have hid : F.dealt clock [] = id := by
      funext run
      simp [dealt]
    rw [hid, List.map_id]
    rfl
  | cons run batch ih =>
    obtain ⟨hrun, hnodup⟩ := List.nodup_cons.mp hnodup
    obtain ⟨hmem, hcand⟩ := hbatch run List.mem_cons_self
    have hrest : ∀ other ∈ batch, other ∈ rows ∧ isCandidate other = true :=
      fun other ho => hbatch other (List.mem_cons_of_mem run ho)
    obtain ⟨-, hmanifest, -⟩ := isCandidate_iff.mp hcand
    obtain ⟨manifestUri, hm⟩ := Option.isSome_iff_exists.mp hmanifest
    have hrecovery : F.recovery run = F.restoreRecording run.id manifestUri := by
      rw [recovery, hm]
      rfl
    simp only [List.filterMap_cons, hm, Option.map_some, recoverEach]
    cases hr : F.restoreRecording run.id manifestUri with
    | none =>
      have hsame : F.settled clock run = run := by
        apply settled_eq_self
        rw [isRecoverable, hrecovery, hr]
        rfl
      simp only [ih hkey hnodup hrest]
      refine List.map_congr_left fun other _ => ?_
      rw [← dealt_cons (Or.inl hsame)]
      by_cases he : other = run
      · simp [dealt, he, hsame]
      · simp [dealt, he]
    | some answer =>
      obtain ⟨uri, recording, checksum⟩ := answer
      have hgood : F.isRecoverable run = true := by
        rw [isRecoverable, hrecovery, hr]
        rfl
      have hgone : F.settled clock run ∉ batch := by
        intro hin
        have hno := not_isCandidate_settled clock hcand hgood
        cases hno.symm.trans (hrest _ hin).2
      simp only [store_eq hkey hmem (hrecovery.trans hr)]
      have hkey' : ((rows.map (F.dealt clock [run])).map BotRun.id).Nodup := by
        rwa [map_dealt_id]
      rw [ih hkey' hnodup, List.map_map]
      · exact List.map_congr_left fun other _ => dealt_cons (Or.inr hgone) other
      · intro other ho
        obtain ⟨hin, hc⟩ := hrest other ho
        have hne : other ≠ run := fun he => hrun (he ▸ ho)
        exact ⟨List.mem_map.mpr ⟨other, hin, by simp [dealt, hne]⟩, hc⟩

theorem mem_waiting : run ∈ waiting rows ↔ run ∈ rows ∧ isCandidate run = true := by
  rw [waiting, List.mem_insertionSort, List.mem_filter]

theorem nodup_waiting (hkey : (rows.map BotRun.id).Nodup) : (waiting rows).Nodup := by
  have hsub : (rows.filter isCandidate).Nodup := (List.Nodup.of_map _ hkey).filter _
  exact (List.perm_insertionSort _ _).nodup_iff.mpr hsub

/-- The first batch of the waiting candidates. -/
def firstBatch (rows : List BotRun) : List BotRun := (waiting rows).take BATCH_SIZE

theorem recoverOnce_eq (hkey : (rows.map BotRun.id).Nodup) :
    (F.recoverOnce clock rows).1 = rows.map (F.dealt clock (firstBatch rows)) := by
  refine recoverEach_eq hkey ((List.take_sublist _ _).nodup (nodup_waiting hkey)) ?_
  intro run hrun
  exact mem_waiting.mp (List.mem_of_mem_take hrun)

end pass

section queue

/-- Strictly before in the order of the query. -/
def StrictlyBefore (a b : BotRun) : Prop := ¬OrdersBefore b a

theorem sorted_waiting (hkey : (rows.map BotRun.id).Nodup) :
    (waiting rows).Pairwise StrictlyBefore := by
  have htotal : ∀ a b : BotRun, OrdersBefore a b ∨ OrdersBefore b a := by
    intro a b
    unfold OrdersBefore
    omega
  have htrans : ∀ a b c : BotRun, OrdersBefore a b → OrdersBefore b c → OrdersBefore a c := by
    intro a b c
    unfold OrdersBefore
    omega
  have : Std.Total OrdersBefore := ⟨htotal⟩
  have : IsTrans BotRun OrdersBefore := ⟨htrans⟩
  have hsort := List.pairwise_insertionSort OrdersBefore (rows.filter isCandidate)
  have hids : ((waiting rows).map BotRun.id).Nodup :=
    ((List.perm_insertionSort _ _).map _).nodup_iff.mpr ((List.filter_sublist.map _).nodup hkey)
  refine (hsort.and (List.pairwise_map.mp hids)).imp fun {a b} h => ?_
  obtain ⟨hle, hne⟩ := h
  unfold StrictlyBefore
  unfold OrdersBefore at *
  omega

theorem map_filter_of_eq {p q : BotRun → Bool} {f : BotRun → BotRun} {l : List BotRun}
    (hp : ∀ x ∈ l, p (f x) = q x) (hf : ∀ x ∈ l, q x = true → f x = x) :
    (l.map f).filter p = l.filter q := by
  induction l with
  | nil => rfl
  | cons x l ih =>
    have ih := ih (fun y hy => hp y (List.mem_cons_of_mem x hy))
      fun y hy => hf y (List.mem_cons_of_mem x hy)
    have hx := hp x List.mem_cons_self
    rw [List.map_cons, List.filter_cons, List.filter_cons, hx, ih]
    split_ifs with hq
    · rw [hf x List.mem_cons_self hq]
    · rfl

/-- A pass as one step of the queue of candidates. -/
theorem waiting_recoverOnce (hkey : (rows.map BotRun.id).Nodup) :
    waiting (F.recoverOnce clock rows).1 = pass BATCH_SIZE F.isRecoverable (waiting rows) := by
  have hkey' : ((F.recoverOnce clock rows).1.map BotRun.id).Nodup := by
    rwa [recoverOnce_eq hkey, map_dealt_id]
  let stays : BotRun → Bool := fun run =>
    !(firstBatch rows).contains run || !F.isRecoverable run
  have hfilter : (F.recoverOnce clock rows).1.filter isCandidate =
      (rows.filter isCandidate).filter stays := by
    rw [recoverOnce_eq hkey, List.filter_filter]
    refine map_filter_of_eq (fun run _ => ?_) fun run _ hs => ?_
    · by_cases hin : run ∈ firstBatch rows
      · have hcand : isCandidate run = true := (mem_waiting.mp (List.mem_of_mem_take hin)).2
        cases hgood : F.isRecoverable run with
        | true => simp [stays, dealt, hin, hgood, not_isCandidate_settled clock hcand hgood]
        | false => simp [stays, dealt, hin, hgood, settled_eq_self hgood]
      · simp [stays, dealt, hin]
    · by_cases hin : run ∈ firstBatch rows
      · have hgood : F.isRecoverable run = false := by
          have hstays : stays run = true := (Bool.and_eq_true_iff.mp hs).1
          simpa [stays, hin] using hstays
        simp [dealt, hin, settled_eq_self hgood]
      · simp [dealt, hin]
  have hperm : (waiting (F.recoverOnce clock rows).1).Perm ((waiting rows).filter stays) := by
    have hsort := List.perm_insertionSort OrdersBefore
      ((F.recoverOnce clock rows).1.filter isCandidate)
    rw [hfilter] at hsort
    have hrows := (List.perm_insertionSort OrdersBefore (rows.filter isCandidate)).filter stays
    rw [waiting, hfilter]
    exact hsort.trans hrows.symm
  rw [pass_eq_filter (nodup_waiting hkey)]
  refine hperm.eq_of_pairwise (fun a b _ _ hab hba => ?_) (sorted_waiting hkey')
    ((sorted_waiting hkey).filter _)
  unfold StrictlyBefore OrdersBefore at hab hba
  omega

end queue

section runs

variable (F clock) in
theorem keys_recoverOnce (hkey : (rows.map BotRun.id).Nodup) :
    ((F.recoverOnce clock rows).1.map BotRun.id).Nodup := by
  rwa [recoverOnce_eq hkey, map_dealt_id]

theorem keys_recoverAll (hkey : (rows.map BotRun.id).Nodup) :
    ((F.recoverAll clocks rows).map BotRun.id).Nodup := by
  induction clocks generalizing rows with
  | nil => exact hkey
  | cons clock clocks ih => exact ih (keys_recoverOnce F clock hkey)

variable (F clocks) in
theorem waiting_recoverAll (hkey : (rows.map BotRun.id).Nodup) :
    waiting (F.recoverAll clocks rows) =
      (pass BATCH_SIZE F.isRecoverable)^[clocks.length] (waiting rows) := by
  induction clocks generalizing rows with
  | nil => rfl
  | cons clock clocks ih =>
    have hkey' := keys_recoverOnce F clock hkey
    have h := ih hkey'
    rw [waiting_recoverOnce hkey] at h
    rw [List.length_cons, Function.iterate_succ_apply]
    exact h

/-- The row of a run that is no candidate is left alone. -/
theorem mem_recoverOnce_of_not_isCandidate (hkey : (rows.map BotRun.id).Nodup)
    (hmem : run ∈ rows) (h : isCandidate run = false) : run ∈ (F.recoverOnce clock rows).1 := by
  have hout : run ∉ firstBatch rows := by
    intro hin
    cases h.symm.trans (mem_waiting.mp (List.mem_of_mem_take hin)).2
  rw [recoverOnce_eq hkey]
  exact List.mem_map.mpr ⟨run, hmem, by simp [dealt, hout]⟩

theorem mem_recoverAll_of_not_isCandidate (hkey : (rows.map BotRun.id).Nodup)
    (hmem : run ∈ rows) (h : isCandidate run = false) : run ∈ F.recoverAll clocks rows := by
  induction clocks generalizing rows with
  | nil => exact hmem
  | cons clock clocks ih =>
    exact ih (keys_recoverOnce F clock hkey) (mem_recoverOnce_of_not_isCandidate hkey hmem h)

/-- A candidate that can be recovered is, in some pass, or its row is as it was. -/
theorem mem_recoverAll (hkey : (rows.map BotRun.id).Nodup) (hmem : run ∈ rows)
    (hcand : isCandidate run = true) (hgood : F.isRecoverable run = true) :
    run ∈ F.recoverAll clocks rows ∨ ∃ clock, F.settled clock run ∈ F.recoverAll clocks rows := by
  induction clocks generalizing rows with
  | nil => exact Or.inl hmem
  | cons clock clocks ih =>
    have hkey' := keys_recoverOnce F clock hkey
    by_cases hin : run ∈ firstBatch rows
    · right
      have hsettled : F.settled clock run ∈ (F.recoverOnce clock rows).1 := by
        rw [recoverOnce_eq hkey]
        exact List.mem_map.mpr ⟨run, hmem, by simp [dealt, hin]⟩
      have hlast : F.settled clock run ∈ F.recoverAll clocks (F.recoverOnce clock rows).1 :=
        mem_recoverAll_of_not_isCandidate hkey' hsettled
          (not_isCandidate_settled clock hcand hgood)
      exact ⟨clock, hlast⟩
    · have hstays : run ∈ (F.recoverOnce clock rows).1 := by
        rw [recoverOnce_eq hkey]
        exact List.mem_map.mpr ⟨run, hmem, by simp [dealt, hin]⟩
      exact ih hkey' hstays

end runs

/-- The candidates before one of them in the queue. -/
theorem countP_before {before after : List BotRun} {bad : BotRun → Bool}
    (hkey : (rows.map BotRun.id).Nodup) (h : waiting rows = before ++ run :: after) :
    (rows.filter isCandidate).countP (fun other => !OrdersBefore run other && bad other) =
      before.countP bad := by
  have hsorted := sorted_waiting hkey
  rw [h, List.pairwise_append] at hsorted
  obtain ⟨-, hafter, hbefore⟩ := hsorted
  have hself : OrdersBefore run run := Or.inr ⟨rfl, Nat.le_refl _⟩
  have hperm := List.perm_insertionSort OrdersBefore (rows.filter isCandidate)
  have hlater : ∀ other ∈ run :: after, OrdersBefore run other := by
    intro other ho
    rcases List.mem_cons.mp ho with rfl | ho
    · exact hself
    · have hlt : StrictlyBefore run other := List.rel_of_pairwise_cons hafter ho
      unfold StrictlyBefore OrdersBefore at hlt
      unfold OrdersBefore
      omega
  have hnone : (run :: after).countP (fun other => !OrdersBefore run other && bad other) = 0 := by
    rw [List.countP_eq_zero]
    intro other ho
    simp [hlater other ho]
  have hall : before.countP (fun other => !OrdersBefore run other && bad other) =
      before.countP bad := by
    refine List.countP_congr fun other ho => ?_
    have hlt : StrictlyBefore other run := hbefore other ho run List.mem_cons_self
    unfold StrictlyBefore at hlt
    simp [hlt]
  rw [← hperm.countP_eq]
  change (waiting rows).countP _ = _
  rw [h, List.countP_append, hnone, hall, Nat.add_zero]

theorem allRecovered_iff (F : Finalizer) (table : Runs) {clocks : List (ℕ → ℕ)}
    (h : clocks.length = (table.rows.filter isCandidate).length) :
    F.AllRecovered table.rows (F.recoverAll clocks table.rows) ↔ F.Unblocked table.rows := by
  have hkey := table.key
  have hlen : clocks.length = (waiting table.rows).length := by
    rw [h, waiting, List.length_insertionSort]
  have hwaiting := waiting_recoverAll F clocks hkey
  have hleft : ∀ run ∈ table.rows, isCandidate run = true → F.isRecoverable run = true →
      (run ∈ F.recoverAll clocks table.rows ↔ BATCH_SIZE ≤
        (table.rows.filter isCandidate).countP fun other =>
          !OrdersBefore run other && !F.isRecoverable other) := by
    intro run hrun hcand hgood
    obtain ⟨before, after, hsplit⟩ := List.append_of_mem (mem_waiting.mpr ⟨hrun, hcand⟩)
    have hnodup := nodup_waiting hkey
    rw [countP_before hkey hsplit]
    have hk : before.length < clocks.length := by
      rw [hlen, hsplit, List.length_append, List.length_cons]
      omega
    rw [hsplit] at hnodup hwaiting
    rw [← mem_passes_iff hgood hk hnodup, ← hwaiting, mem_waiting]
    exact ⟨fun hmem => ⟨hmem, hcand⟩, And.left⟩
  constructor
  · intro hall run hrun hcand hgood
    by_contra hlt
    have hmem := (hleft run hrun hcand hgood).mpr (Nat.le_of_not_lt hlt)
    obtain ⟨-, hmanifest, huri⟩ := isCandidate_iff.mp hcand
    obtain ⟨manifestUri, hm⟩ := Option.isSome_iff_exists.mp hmanifest
    obtain ⟨⟨uri, recording, checksum⟩, hrec⟩ := Option.isSome_iff_exists.mp hgood
    rw [recovery, hm] at hrec
    obtain ⟨⟨damaged, hrestored⟩, hne, hput, -⟩ := restoreRecording_eq_some.mp hrec
    obtain ⟨run', hmem', hid, huri', -⟩ :=
      hall run hrun hcand manifestUri hm recording damaged checksum hrestored hne hput
    have hsame : run' = run :=
      List.inj_on_of_nodup_map (keys_recoverAll hkey) hmem' hmem hid
    rw [hsame, huri] at huri'
    cases huri'
  · intro hun run hrun hcand manifestUri hm recording damaged checksum hrestored hne hput
    have hrec : F.recovery run =
        some (⟨F.bucket, .recording run.id⟩, recording, checksum) := by
      rw [recovery, hm]
      exact restoreRecording_eq_some.mpr ⟨⟨damaged, hrestored⟩, hne, hput, rfl⟩
    have hgood : F.isRecoverable run = true := by
      rw [isRecoverable, hrec]
      rfl
    have hgone : run ∉ F.recoverAll clocks table.rows := by
      intro hmem
      have hle := (hleft run hrun hcand hgood).mp hmem
      have hlt := hun run hrun hcand hgood
      omega
    obtain ⟨clock, hmem⟩ := (mem_recoverAll hkey hrun hcand hgood).resolve_left hgone
    obtain ⟨hid, huri, hsha, hbytes⟩ := settled_columns clock hcand hrec
    rw [restored_checksum hrestored] at hsha
    exact ⟨_, hmem, hid, huri, hsha, hbytes⟩

section blocked

def failedRun (bot : ℕ) : BotRun :=
  { id := bot, meetingUrl := "https://meet.google.com/abc-defg-hij", meetingKey := "abc-defg-hij"
    idempotencyKey := none, displayName := none, status := .failed, createdAt := 0
    updatedAt := 0, checkpointManifestUri := some ⟨"twin", .manifest bot⟩ }

/-- A whole batch of failed runs, and one more. -/
def failedBatch : Runs where
  rows := (List.range (BATCH_SIZE + 1)).map failedRun
  key := by decide +kernel

/-- A digest of one recording. -/
def only (_ : Bytes) : String := "digest"

/-- Of the first batch not even the manifests are left. -/
def lostManifests : Finalizer where
  bucket := "twin"
  sha256 := only
  retentionDays := 30
  reads
    | .chunk 20 0 => some (.bytes [1])
    | .manifest 20 => some (.json { botId := 20, chunks := describe only "twin" 20 0 [[1]] })
    | _ => none
  refuses _ _ := false

def passes : List (ℕ → ℕ) := List.replicate (BATCH_SIZE + 1) fun _ => 0

theorem allRecovered_iff_failedBatch :
    lostManifests.AllRecovered failedBatch.rows
      (lostManifests.recoverAll passes failedBatch.rows) ↔
        lostManifests.Unblocked failedBatch.rows :=
  allRecovered_iff lostManifests failedBatch (by decide +kernel)

/-- The last run could be recovered, and no pass gets to it. -/
theorem not_allRecovered : ¬∀ (F : Finalizer) (table : Runs) (clocks : List (ℕ → ℕ)),
    clocks.length = (table.rows.filter isCandidate).length →
      F.AllRecovered table.rows (F.recoverAll clocks table.rows) := by
  intro h
  have hall := h lostManifests failedBatch passes (by decide +kernel)
  have hrestored : restored only lostManifests.reads ⟨"twin", .manifest 20⟩ =
      .ok ([1], false, "digest") := by decide +kernel
  obtain ⟨run, hmem, hid, huri, -⟩ := hall (failedRun 20) (by decide +kernel) (by decide)
    _ rfl _ _ _ hrestored (by decide) rfl
  have hnone : ∀ run ∈ lostManifests.recoverAll passes failedBatch.rows,
      run.recordingUri = none := by decide +kernel
  cases (hnone run hmem).symm.trans huri

end blocked

end Fakery.Recording.Finalizer

import Fakery.Meet.Page

/-! What the browser has recorded comes to the spool of the recorder once, if it comes, and what has
not come is still in the page or was given up by a handler. -/
namespace Fakery.Meet
open Fakery.Storage Fakery.Texts

section texts

theorem binary_eq (n : ℕ) (data : Bytes) : binary n data = data.take (n * BLOCK) := by
  induction n generalizing data with
  | zero => simp [binary]
  | succ n ih => rw [binary, ih, Nat.succ_mul, Nat.add_comm (n * BLOCK), List.take_add]

/-- The blocks of a string are all the bytes. -/
theorem binary_blocks (blob : Bytes) :
    binary ((blob.length + BLOCK - 1) / BLOCK) blob = blob := by
  have hlen : blob.length ≤ (blob.length + BLOCK - 1) / BLOCK * BLOCK := by
    have hdiv := Nat.div_add_mod (blob.length + BLOCK - 1) BLOCK
    have hmod := Nat.mod_lt (blob.length + BLOCK - 1) (show 0 < BLOCK by decide)
    rw [Nat.mul_comm] at hdiv
    have hblock : BLOCK = 32768 := rfl
    omega
  rw [binary_eq, List.take_of_length_le hlen]

theorem decode_chunkText (blob : Bytes) : Base64.decode (chunkText blob) = some blob := by
  rw [chunkText, binary_blocks, Base64.decode_encode]

theorem decodeAll_chunkText (blobs : List Bytes) :
    Page.decodeAll (blobs.map chunkText) = some blobs := by
  induction blobs with
  | nil => rfl
  | cons blob blobs ih =>
    rw [Page.decodeAll] at ih ⊢
    rw [List.map_cons, List.mapM_cons, decode_chunkText, ih]
    rfl

end texts

section spool

variable {bucket : String} {sha256 : Bytes → String} {failures : ℕ → Failures} {w : World}

/-- The chunks that a drain writes. -/
def Input.chunks : Input → List Bytes
  | .drain (some chunks) => chunks
  | .drain none | .flush => []

theorem flush_spool : (flushCheckpoint (sinks bucket sha256 failures) w).2.recorder.spool =
    w.recorder.spool := by
  by_cases hb : w.recorder.checkpointBuffer = []
  · rw [flush_empty hb]
  · obtain ⟨checkpointed, w', hf, hw⟩ := flush_cases bucket sha256 failures hb
    rw [hf]
    rcases hw with ⟨-, rfl⟩ | ⟨-, -, rfl⟩ | ⟨-, -, uri, rfl⟩ <;>
      simp [World.clear, Recorder.cleared, World.addBlock, World.addManifest, World.setColumn,
        World.store, World.setWriter]

theorem drainChunks_spool (chunks : List Bytes) :
    (drainChunks (sinks bucket sha256 failures) chunks w).2.recorder.spool =
      w.recorder.spool ++ chunks.flatten := by
  induction chunks generalizing w with
  | nil => exact (List.append_nil _).symm
  | cons data chunks ih =>
    have hhead : (drainChunk (sinks bucket sha256 failures) data w).2.recorder.spool =
        w.recorder.spool ++ data := by
      rw [drainChunk_eq]
      split_ifs
      · exact flush_spool
      · rfl
    refine (ih (w := (drainChunk (sinks bucket sha256 failures) data w).2)).trans ?_
    rw [hhead, List.flatten_cons, List.append_assoc]

variable (bucket sha256 failures) in
/-- The spool is what the drains have been given. -/
theorem record_spool (bot : ℕ) (inputs : List Input) :
    (record bucket sha256 failures bot inputs).recorder.spool =
      (inputs.flatMap Input.chunks).flatten := by
  induction inputs using List.reverseRecOn with
  | nil => rfl
  | append_singleton inputs input ih =>
    rw [record_concat, List.flatMap_append, List.flatten_append, ← ih]
    cases input with
    | flush => exact flush_spool.trans (List.append_nil _).symm
    | drain evaluated =>
      cases evaluated with
      | none => exact (List.append_nil _).symm
      | some chunks =>
        refine (drainChunks_spool chunks).trans ?_
        simp [Input.chunks]

end spool

section page

variable {p p' : Page} {taken waiting : List Bytes}

/-- What the drains have been given, and where the rest of what was recorded is. -/
structure Balanced (p : Page) (taken waiting : List Bytes) : Prop where
  one : ∀ r, p.recorders[r]? = some .recording → p.recorder = some r
  anchor : p.anchor = waiting.map chunkText
  drained : p.inputs.flatMap Input.chunks = taken
  all : (taken ++ waiting ++ p.inFlight ++ p.failed ++ p.lost).Perm p.recorded

/-- No handler raises or overtakes another one, and the answer of a collection is not lost. -/
def PageEvent.Orderly : PageEvent → Prop
  | .bytes i raises => i = 0 ∧ raises = false
  | .collect evaluated => evaluated ≠ .lost
  | _ => True

def InOrder (p : Page) (taken waiting : List Bytes) : Prop :=
  taken ++ waiting ++ p.inFlight = p.recorded

/-- A step that neither records nor collects. -/
structure Aside (p p' : Page) : Prop where
  one : (∀ r, p.recorders[r]? = some .recording → p.recorder = some r) →
    ∀ r, p'.recorders[r]? = some .recording → p'.recorder = some r
  anchor : p'.anchor = p.anchor
  given : p'.given = p.given
  inFlight : p'.inFlight = p.inFlight
  failed : p'.failed = p.failed
  lost : p'.lost = p.lost
  recorded : p'.recorded = p.recorded

theorem Balanced.aside (h : Balanced p taken waiting) (hstep : Aside p p') :
    Balanced p' taken waiting where
  one := hstep.one h.one
  anchor := hstep.anchor.trans h.anchor
  drained := by rw [Page.inputs, hstep.given]; exact h.drained
  all := by rw [hstep.inFlight, hstep.failed, hstep.lost, hstep.recorded]; exact h.all

theorem aside_stopRecorder (p : Page) (r : ℕ) : Aside p (p.stopRecorder r) := by
  unfold Page.stopRecorder
  split_ifs
  · refine ⟨fun hone q hq => hone q ?_, rfl, rfl, rfl, rfl, rfl, rfl⟩
    dsimp only at hq
    rw [List.getElem?_set] at hq
    split_ifs at hq with heq
    · cases hq
    · exact hq
  · exact ⟨id, rfl, rfl, rfl, rfl, rfl, rfl⟩

theorem aside_newRecorder (id : ℕ) {state : MediaState} (h : p.isRecording = false) :
    Aside p (p.newRecorder id state) := by
  refine ⟨fun hone q hq => ?_, rfl, rfl, rfl, rfl, rfl, rfl⟩
  simp only [Page.newRecorder, List.getElem?_append] at hq ⊢
  split_ifs at hq with hlt
  · have hcurrent := hone q hq
    simp [Page.isRecording, hcurrent, hq] at h
  · have hq' : q - p.recorders.length = 0 := by
      by_contra hne
      rw [List.getElem?_eq_none (by simp; omega)] at hq
      cases hq
    exact congrArg some (by omega)

theorem Aside.trans {p'' : Page} (h : Aside p p') (h' : Aside p' p'') : Aside p p'' where
  one hone := h'.one (h.one hone)
  anchor := h'.anchor.trans h.anchor
  given := h'.given.trans h.given
  inFlight := h'.inFlight.trans h.inFlight
  failed := h'.failed.trans h.failed
  lost := h'.lost.trans h.lost
  recorded := h'.recorded.trans h.recorded

theorem aside_of_same (h : p'.recorders = p.recorders) (hr : p'.recorder = p.recorder)
    (ha : p'.anchor = p.anchor) (hg : p'.given = p.given) (hi : p'.inFlight = p.inFlight)
    (hf : p'.failed = p.failed) (hl : p'.lost = p.lost) (hall : p'.recorded = p.recorded) :
    Aside p p' :=
  ⟨fun hone => by rw [h, hr]; exact hone, ha, hg, hi, hf, hl, hall⟩

theorem aside_addTrack (p : Page) (id : ℕ) (made : Made) : Aside p (p.addTrack id made) := by
  have hsame : Aside p { p with audioTracks := p.audioTracks.insert id } :=
    aside_of_same rfl rfl rfl rfl rfl rfl rfl rfl
  unfold Page.addTrack
  cases made with
  | unmixed => exact hsame
  | unmade =>
    dsimp only
    split_ifs <;> exact hsame
  | _ =>
    dsimp only
    split_ifs with hrecording
    · exact hsame
    · exact hsame.trans (aside_newRecorder id ((Bool.not_eq_true _).mp hrecording))

theorem aside_endTrack (p : Page) (id : ℕ) : Aside p (p.endTrack id) := by
  unfold Page.endTrack
  dsimp only
  split_ifs with hlistening halive
  · exact aside_of_same rfl rfl rfl rfl rfl rfl rfl rfl
  · have hsame : Aside p { p with ended := p.ended.insert id
                                  audioTracks := p.audioTracks.erase id } :=
      aside_of_same rfl rfl rfl rfl rfl rfl rfl rfl
    split
    · exact hsame.trans (aside_stopRecorder _ _)
    · exact hsame
  · exact aside_of_same rfl rfl rfl rfl rfl rfl rfl rfl

/-- What is recorded goes to a handler. -/
theorem Balanced.take (h : Balanced p taken waiting) (blob : Bytes) :
    Balanced { p with inFlight := p.inFlight ++ [blob], recorded := p.recorded ++ [blob] } taken
      waiting where
  one := h.one
  anchor := h.anchor
  drained := h.drained
  all := by
    refine List.perm_iff_count.mpr fun a => ?_
    have hcount := h.all.count_eq a
    simp only [List.count_append] at hcount ⊢
    omega

theorem InOrder.take (h : InOrder p taken waiting) (blob : Bytes) :
    InOrder { p with inFlight := p.inFlight ++ [blob], recorded := p.recorded ++ [blob] } taken
      waiting := by
  have hleft := congrArg (· ++ [blob]) h
  rwa [List.append_assoc] at hleft

theorem aside_inactive (p : Page) (r : ℕ) :
    Aside p { p with recorders := p.recorders.set r .inactive } := by
  refine ⟨fun hone q hq => hone q ?_, rfl, rfl, rfl, rfl, rfl, rfl⟩
  dsimp only at hq
  rw [List.getElem?_set] at hq
  split_ifs at hq with heq
  · cases hq
  · exact hq

theorem Balanced.available {r : ℕ} {blob : Bytes} (h : Balanced p taken waiting)
    (hstep : p.available r blob = some p') :
    Balanced p' taken waiting ∧ (InOrder p taken waiting → InOrder p' taken waiting) := by
  let q : Page := if blob = [] then p
    else { p with inFlight := p.inFlight ++ [blob], recorded := p.recorded ++ [blob] }
  have hq : Balanced q taken waiting ∧ (InOrder p taken waiting → InOrder q taken waiting) := by
    simp only [q]
    split_ifs
    · exact ⟨h, id⟩
    · exact ⟨h.take blob, fun ho => ho.take blob⟩
  simp only [Page.available] at hstep
  split at hstep
  · have heq : q = p' := Option.some.inj hstep
    exact heq ▸ hq
  · have heq : { q with recorders := q.recorders.set r .inactive } = p' := Option.some.inj hstep
    exact heq ▸ ⟨hq.1.aside (aside_inactive q r), hq.2⟩
  · cases hstep

/-- The bytes of a handler go to the anchor, or it has failed. -/
theorem Balanced.handled {i : ℕ} {raises : Bool} (h : Balanced p taken waiting)
    (hstep : p.handled i raises = some p') : ∃ waiting', Balanced p' taken waiting' ∧
      (i = 0 → raises = false → InOrder p taken waiting → InOrder p' taken waiting') := by
  obtain ⟨blob, hblob, hstep⟩ := Option.map_eq_some_iff.mp hstep
  obtain ⟨hi, hget⟩ := List.getElem?_eq_some_iff.mp hblob
  have hperm : (blob :: p.inFlight.eraseIdx i).Perm p.inFlight :=
    hget ▸ List.getElem_cons_eraseIdx_perm hi
  have hcount : ∀ a, p.inFlight.count a = (p.inFlight.eraseIdx i).count a + [blob].count a :=
    fun a => by
      rw [← hperm.count_eq a, ← List.singleton_append, List.count_append, Nat.add_comm]
  cases raises with
  | true =>
    cases hstep
    refine ⟨waiting, ⟨h.one, h.anchor, h.drained, ?_⟩, nofun⟩
    refine List.perm_iff_count.mpr fun a => ?_
    have hall := h.all.count_eq a
    have hi := hcount a
    simp only [if_true, List.count_append] at hall ⊢
    omega
  | false =>
    cases hstep
    refine ⟨waiting ++ [blob], ⟨h.one, ?_, h.drained, ?_⟩, fun hzero _ ho => ?_⟩
    · simp [h.anchor]
    · refine List.perm_iff_count.mpr fun a => ?_
      have hall := h.all.count_eq a
      have hi := hcount a
      simp only [Bool.false_eq_true, if_false, List.count_append] at hall ⊢
      omega
    · subst hzero
      cases hflight : p.inFlight with
      | nil =>
        rw [hflight] at hi
        cases hi
      | cons first rest =>
        have hfirst : first = blob := by
          rw [hflight] at hblob
          exact Option.some.inj hblob
        unfold InOrder at ho ⊢
        rw [hflight] at ho
        simpa [hflight, hfirst] using ho

theorem flatMap_given (given : List (Option (List Text))) (answer : Option (List Text)) :
    ((given ++ [answer]).map fun answer => Input.drain (answer.bind Page.decodeAll)).flatMap
      Input.chunks = (given.map fun answer => Input.drain (answer.bind Page.decodeAll)).flatMap
        Input.chunks ++ (Input.drain (answer.bind Page.decodeAll)).chunks := by
  simp

/-- What a collection takes out of the page is given to a drain, unless the answer is lost. -/
theorem Balanced.collect (h : Balanced p taken waiting) (evaluated : Evaluated) :
    ∃ taken' waiting', Balanced (p.collect evaluated) taken' waiting' ∧
      (evaluated ≠ .lost → InOrder p taken waiting →
        InOrder (p.collect evaluated) taken' waiting') := by
  have hdecode : Page.decodeAll p.anchor = some waiting := by
    rw [h.anchor, decodeAll_chunkText]
  cases evaluated with
  | unreached =>
    refine ⟨taken, waiting, ⟨h.one, h.anchor, ?_, h.all⟩, fun _ ho => ho⟩
    exact (flatMap_given _ _).trans (by rw [Option.bind_none, Input.chunks, List.append_nil]
                                        exact h.drained)
  | lost =>
    refine ⟨taken, [], ⟨h.one, rfl, ?_, ?_⟩, fun hlost => absurd rfl hlost⟩
    · exact (flatMap_given _ _).trans (by rw [Option.bind_none, Input.chunks, List.append_nil]
                                          exact h.drained)
    · refine List.perm_iff_count.mpr fun a => ?_
      have hall := h.all.count_eq a
      simp only [Page.collect, hdecode, Option.getD_some, List.count_append, List.count_nil]
        at hall ⊢
      omega
  | answered =>
    refine ⟨taken ++ waiting, [], ⟨h.one, rfl, ?_, ?_⟩, fun _ ho => ?_⟩
    · exact (flatMap_given _ _).trans (by rw [Option.bind_some, hdecode, Input.chunks]
                                          exact congrArg (· ++ waiting) h.drained)
    · rw [List.append_nil]
      exact h.all
    · unfold InOrder at ho ⊢
      rw [List.append_nil]
      exact ho

theorem Balanced.step {e : PageEvent} (h : Balanced p taken waiting) (hstep : p.step e = some p') :
    ∃ taken' waiting', Balanced p' taken' waiting' ∧
      (e.Orderly → InOrder p taken waiting → InOrder p' taken' waiting') := by
  have haside : Aside p p' → ∃ taken' waiting', Balanced p' taken' waiting' ∧
      (e.Orderly → InOrder p taken waiting → InOrder p' taken' waiting') := fun hp =>
    ⟨taken, waiting, h.aside hp, fun _ ho => by
      rw [InOrder, hp.inFlight, hp.recorded]
      exact ho⟩
  cases e with
  | hook =>
    cases hstep
    exact haside (aside_of_same rfl rfl rfl rfl rfl rfl rfl rfl)
  | track id audio made =>
    simp only [Page.step] at hstep
    split_ifs at hstep <;> cases hstep
    · exact haside (aside_addTrack p id made)
    · exact haside (aside_of_same rfl rfl rfl rfl rfl rfl rfl rfl)
  | ended id =>
    cases hstep
    exact haside (aside_endTrack p id)
  | data r blob =>
    obtain ⟨hnext, horder⟩ := h.available hstep
    exact ⟨taken, waiting, hnext, fun _ => horder⟩
  | breaks r =>
    cases hstep
    exact haside (aside_stopRecorder p r)
  | bytes i raises =>
    obtain ⟨waiting', hnext, horder⟩ := h.handled hstep
    exact ⟨taken, waiting', hnext, fun ho => horder ho.1 ho.2⟩
  | stop =>
    simp only [Page.step] at hstep
    split at hstep <;> cases hstep
    · exact haside (aside_stopRecorder p _)
    · exact haside (aside_of_same rfl rfl rfl rfl rfl rfl rfl rfl)
  | collect evaluated =>
    cases hstep
    exact h.collect evaluated

theorem Balanced.run {es : List PageEvent} (h : Balanced p taken waiting)
    (hrun : p.run es = some p') : ∃ taken' waiting', Balanced p' taken' waiting' ∧
      ((∀ e ∈ es, e.Orderly) → InOrder p taken waiting → InOrder p' taken' waiting') := by
  induction es generalizing p taken waiting with
  | nil =>
    cases Option.some.inj hrun
    exact ⟨taken, waiting, h, fun _ => id⟩
  | cons e es ih =>
    obtain ⟨q, hq, hrun⟩ := Option.bind_eq_some_iff.mp hrun
    obtain ⟨taken₁, waiting₁, h₁, ho₁⟩ := h.step hq
    obtain ⟨taken₂, waiting₂, h₂, ho₂⟩ := ih h₁ hrun
    refine ⟨taken₂, waiting₂, h₂, fun hes ho => ?_⟩
    obtain ⟨he, hes⟩ := List.forall_mem_cons.mp hes
    exact ho₂ hes (ho₁ he ho)

/-- Whatever the tracks, the recorders and the handlers of a page do and whenever it is collected
from: one recorder at most is recording; every chunk that is collected can be decoded; and what has
been recorded is, each piece of it once, in the spool, in the page, at a handler, or given up by a
handler or with an answer that was lost. Where no handler overtakes another one or raises and no
answer is lost, it is there in the order it was recorded in. The chunks that a drain has not written
when `stop` cuts it off are lost with an answer. -/
theorem recorded_spooled (bucket : String) (sha256 : Bytes → String) (failures : ℕ → Failures)
    (bot : ℕ) (es : List PageEvent) (p : Page) (hrun : Page.run {} es = some p) :
    (∀ r, p.recorders[r]? = some .recording → p.recorder = some r) ∧
    ∃ taken waiting,
      (record bucket sha256 failures bot p.inputs).recorder.spool = taken.flatten ∧
      Page.decodeAll p.anchor = some waiting ∧
      (taken ++ waiting ++ p.inFlight ++ p.failed ++ p.lost).Perm p.recorded ∧
      ((∀ e ∈ es, e.Orderly) → taken ++ waiting ++ p.inFlight = p.recorded) := by
  have hstart : Balanced {} [] [] := ⟨nofun, rfl, rfl, .nil⟩
  obtain ⟨taken, waiting, h, horder⟩ := hstart.run hrun
  refine ⟨h.one, taken, waiting, ?_, ?_, h.all, fun hes => horder hes rfl⟩
  · rw [record_spool, h.drained]
  · rw [h.anchor, decodeAll_chunkText]

/-- Two tracks of a meeting, and a handler that overtakes another one. -/
def overtaking : List PageEvent :=
  [.hook, .track 1 true .started, .track 2 true .started, .data 0 [1, 2], .data 0 [3], .bytes 1 false,
    .collect .answered, .ended 1, .ended 2, .stop, .data 0 [], .bytes 0 false]

/-- The page that they leave. -/
def overtaken : Page where
  hooked := true
  listening := [1]
  audioTracks := [2]
  ended := [2, 1]
  recorders := [.inactive]
  recorder := some 0
  anchor := [['A', 'Q', 'I', '=']]
  recorded := [[1, 2], [3]]
  given := [some [['A', 'w', '=', '=']]]

theorem recorded_spooled_overtaking : Page.run {} overtaking = some overtaken ∧
    ∃ taken waiting : List Bytes,
      (record "twin" (fun _ => "") (fun _ => {}) 7 overtaken.inputs).recorder.spool =
        taken.flatten ∧ (taken ++ waiting).Perm [[1, 2], [3]] :=
  have hrun : Page.run {} overtaking = some overtaken := by decide +kernel
  have ⟨_, taken, waiting, hspool, _, hall, _⟩ :=
    recorded_spooled "twin" (fun _ => "") (fun _ => {}) 7 overtaking overtaken hrun
  ⟨hrun, taken, waiting, hspool, by simpa [overtaken] using hall⟩

end page

end Fakery.Meet

import Fakery.Requests.Stored

/-! Which of the accepted requests have room in the table. -/
namespace Fakery.Requests
open Fakery.Bots Fakery.Core Fakery.Meetings

variable {admits : Text → Bool} {clock : ℕ → ℕ} {s : Runs} {id : ℕ} {u : Text} {size : ℕ}
  {meeting : Text × Text} {displayName idempotencyKey : Option String} {run : BotRun}

/-- What a request may end in: a run, or a problem of the catalogue. -/
def Settled : Except CreateError ((BotRun × Bool) × Runs) → Prop
  | .ok _ => True
  | .error (.problem e) => e.slug ∈ catalog.map Prod.fst
  | .error (.url (.problem e)) => e.slug ∈ catalog.map Prod.fst
  | .error (.url .valueError) => False
  | .error .database => False

theorem fits_of_unsendable {key : String} (h : Shaped size meeting)
    (hasked : Asked idempotencyKey key) (hbad : sendable key = false) :
    fits (queuedRun clock s id meeting displayName idempotencyKey) = false := by
  apply Bool.eq_false_iff.mpr
  intro hfits
  have hkey := ((fits_queuedRun h clock s id displayName idempotencyKey).mp hfits).2.2
  rw [hasked.1, Option.all_some, fitsColumn, hbad, Bool.and_false] at hkey
  cases hkey

/-- With no rows, a run is inserted if it fits. -/
theorem createOrGet_empty (hn : normalizeMeetingUrl admits u = .ok meeting) :
    createOrGet admits clock {} id u displayName idempotencyKey =
      if fits (queuedRun clock {} id meeting displayName idempotencyKey) then
        .ok ((queuedRun clock {} id meeting displayName idempotencyKey, true),
          ({} : Runs).tick.tick.insert
            (queuedRun clock {} id meeting displayName idempotencyKey))
      else .error .database := by
  obtain ⟨segment, -, hshape⟩ := shaped_of_normalize hn
  have hdecided := createOrGet_decided stored_empty hn clock id displayName idempotencyKey
  generalize createOrGet admits clock {} id u displayName idempotencyKey = result at hdecided
  cases hdecided with
  | unsendable hasked hbad =>
    rw [fits_of_unsendable hshape hasked hbad]
    rfl
  | unfit _ _ hbad =>
    rw [hbad]
    rfl
  | created _ _ hgood => rw [if_pos hgood]
  | same _ hused =>
    obtain ⟨b, hb⟩ := hused.1
    cases hb
  | other _ hused =>
    obtain ⟨b, hb⟩ := hused.1
    cases hb
  | busy _ hbusy =>
    obtain ⟨b, run, hb, -⟩ := hbusy
    cases hb
  | clash hunused _ _ hnear =>
    exact absurd ⟨rfl, fun b run hb => (nomatch hb), fun b run hb => (nomatch hb)⟩ hnear

theorem settled_of_fits (hs : Stored s) (hn : normalizeMeetingUrl admits u = .ok meeting)
    (hgood : fits (queuedRun clock s id meeting displayName idempotencyKey) = true) :
    Settled (createOrGet admits clock s id u displayName idempotencyKey) := by
  have hconflict : "conflict" ∈ catalog.map Prod.fst := by decide
  obtain ⟨segment, -, hshape⟩ := shaped_of_normalize hn
  have hdecided := createOrGet_decided hs hn clock id displayName idempotencyKey
  generalize createOrGet admits clock s id u displayName idempotencyKey = result at hdecided
  cases hdecided with
  | unsendable hasked hbad =>
    rw [fits_of_unsendable hshape hasked hbad] at hgood
    cases hgood
  | unfit _ _ hbad =>
    rw [hbad] at hgood
    cases hgood
  | same => trivial
  | created => trivial
  | other => exact hconflict
  | busy => exact hconflict
  | clash => exact hconflict

/-- An accepted request fits, and is settled on every store, if its code has at most 240 characters
and its other texts have room in their columns, and only then. -/
theorem request_fits_iff (admits : Text → Bool) (clock : ℕ → ℕ)
    (httpUrl : Text → Except String Text) (body : CreateBotRequest)
    (idempotencyKey : Option String) (url : Text) (meeting : Text × Text)
    (hurl : httpUrl body.meetingUrl = .ok url)
    (hn : normalizeMeetingUrl admits url = .ok meeting) :
    ((∀ s, Reachable admits clock s → ∀ id,
        fits (queuedRun clock s id meeting body.displayName idempotencyKey) = true) ↔
      (segmentOf admits url).all (·.length ≤ 240) = true ∧
        body.displayName.all (fitsColumn 128) = true ∧
        idempotencyKey.all (fitsColumn 128) = true) ∧
    ((∀ s, Reachable admits clock s → ∀ id,
        Settled (createBot admits clock s httpUrl id body idempotencyKey)) ↔
      (segmentOf admits url).all (·.length ≤ 240) = true ∧
        body.displayName.all (fitsColumn 128) = true ∧
        idempotencyKey.all (fitsColumn 128) = true) := by
  obtain ⟨segment, hsegment, hshape⟩ := shaped_of_normalize hn
  have hempty : Reachable admits clock {} := ⟨[], rfl⟩
  have hfits := fun s id => fits_queuedRun hshape clock s id body.displayName idempotencyKey
  have hcreate : ∀ s id, createBot admits clock s httpUrl id body idempotencyKey =
      createOrGet admits clock s id url body.displayName idempotencyKey := by
    intro s id
    rw [createBot, hurl]
  rw [hsegment, Option.all_some, decide_eq_true_eq]
  constructor
  · constructor
    · intro h
      exact (hfits {} 0).mp (h {} hempty 0)
    · intro h s _ id
      exact (hfits s id).mpr h
  · constructor
    · intro h
      by_contra hnot
      have hbad := Bool.eq_false_iff.mpr (mt (hfits {} 0).mp hnot)
      have hsettled := h {} hempty 0
      rw [hcreate, createOrGet_empty hn, hbad] at hsettled
      exact hsettled
    · intro h s hs id
      rw [hcreate]
      exact settled_of_fits hs.stored hn ((hfits s id).mpr h)

/-- A validation that leaves a URL as it is, for URLs that are in normal form. -/
def limitedUrl (url : Text) : Except String Text :=
  if url.length ≤ 2083 then .ok url else .error "URL should have at most 2083 characters"

/-- A code of 241 characters. -/
def longCode : Text := "abc".toList ++ '-' :: List.replicate 233 'd' ++ '-' :: "hij".toList

theorem isCode_longCode : isCode longCode = true := by
  apply isCode_iff.mpr
  refine ⟨"abc".toList, List.replicate 233 'd', "hij".toList, rfl, by decide, ?_, by decide, ?_⟩
  · rw [List.length_replicate]
    omega
  · intro c hc
    rw [List.mem_append, List.mem_append] at hc
    have hends : (("abc".toList ++ "hij".toList).all codeChar) = true := by decide
    rcases hc with (hc | hc) | hc
    · exact List.all_eq_true.mp hends c (List.mem_append_left _ hc)
    · rw [(List.mem_replicate.mp hc).2]
      decide
    · exact List.all_eq_true.mp hends c (List.mem_append_right _ hc)

theorem limitedUrl_canonical {code : Text} (hcode : isCode code = true)
    (h : code.length ≤ 2059) : limitedUrl (canonical code).1 = .ok (canonical code).1 := by
  apply if_pos
  rw [(shaped_canonical hcode).url.1]
  omega

theorem length_longCode : longCode.length = 241 := by
  simp only [longCode, List.length_append, List.length_cons, List.length_replicate]
  rfl

/-- A request that has room is settled. -/
theorem some_request_settled :
    Settled (createBot (fun _ => true) (fun n => n) {} limitedUrl 0
      ⟨(canonical someCode).1, some "Notes"⟩ none) := by
  have hn := normalize_of_isCode isCode_someCode fun _ => true
  have hfits := request_fits_iff (fun _ => true) (fun n => n) limitedUrl
    ⟨(canonical someCode).1, some "Notes"⟩ none (canonical someCode).1 (canonical someCode)
    (limitedUrl_canonical isCode_someCode (by decide)) hn
  apply hfits.2.mpr
  · exact ⟨segmentOf_canonical isCode_someCode (by decide), by decide, rfl⟩
  · exact ⟨[], rfl⟩

/-- The URL of a meeting with a long code is accepted, and its row is not. -/
theorem long_code_rejected :
    normalizeMeetingUrl (fun _ => true) (canonical longCode).1 = .ok (canonical longCode) ∧
      createBot (fun _ => true) (fun n => n) {} limitedUrl 0 ⟨(canonical longCode).1, none⟩ none =
        .error .database := by
  have hn := normalize_of_isCode isCode_longCode fun _ => true
  have hshape := shaped_canonical isCode_longCode
  refine ⟨hn, ?_⟩
  rw [createBot, limitedUrl_canonical isCode_longCode (by rw [length_longCode]; omega)]
  have hbad : ¬fits (queuedRun (fun n => n) {} 0 (canonical longCode) none none) = true := by
    intro hfits
    have hshort := ((fits_queuedRun hshape _ _ _ _ _).mp hfits).1
    rw [length_longCode] at hshort
    omega
  exact (createOrGet_empty hn).trans (if_neg hbad)

end Fakery.Requests

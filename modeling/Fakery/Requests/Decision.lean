import Fakery.Requests.Columns

/-! When a request gets the run of an earlier one, a conflict or a run of its own. -/
namespace Fakery.Requests
open Fakery.Bots Fakery.Core Fakery.Meetings

variable {admits : Text → Bool} {clock : ℕ → ℕ} {s : Runs} {id : ℕ} {u : Text}
  {meeting : Text × Text} {displayName idempotencyKey : Option String} {run existing : BotRun}
  {result : Except CreateError ((BotRun × Bool) × Runs)}

/-- What is to decide about a request, where `run` is what it may insert: a run with its key, and an
active run of its meeting. -/
structure DecisionLaw (s : Runs) (idempotencyKey : Option String) (run : BotRun)
    (result : Except CreateError ((BotRun × Bool) × Runs)) : Prop where
  existing : ∀ existing, result = .ok ((existing, false), s) ↔
    ∃ key, Asked idempotencyKey key ∧ Used s key existing ∧ existing.meetingKey = run.meetingKey
  conflict : (∃ detail, result = .error (.problem (makeError "conflict" detail))) ↔
    (∃ key existing, Asked idempotencyKey key ∧ Used s key existing ∧
      existing.meetingKey ≠ run.meetingKey) ∨
    (∀ key existing, Asked idempotencyKey key → ¬Used s key existing) ∧ Busy s run.meetingKey
  created : (∀ key existing, Asked idempotencyKey key → ¬Used s key existing) →
    ¬Busy s run.meetingKey → result = .ok ((run, true), s.tick.tick.insert run)

/-- The requests about which the law is kept: the database takes the key, and the row, if it comes
to an insert, which is of a key that no row has. -/
structure Regular (admits : Text → Bool) (s : Runs) (u : Text) (meetingKey : String)
    (displayName idempotencyKey : Option String) : Prop where
  sendable : ∀ key, Asked idempotencyKey key → sendable key = true
  room : (∀ key existing, Asked idempotencyKey key → ¬Used s key existing) → ¬Busy s meetingKey →
    (segmentOf admits u).all (·.length ≤ 240) = true ∧
      displayName.all (fitsColumn 128) = true ∧ idempotencyKey.all (fitsColumn 128) = true
  unlike : (∀ key existing, Asked idempotencyKey key → ¬Used s key existing) → ¬Busy s meetingKey →
    idempotencyKey = some "" → ∀ existing, ¬Used s "" existing

theorem Asked.unique {key other : String} (h : Asked idempotencyKey key)
    (h' : Asked idempotencyKey other) : key = other :=
  Option.some.inj (h.1.symm.trans h'.1)

/-- The law leaves no room for an error of the database. -/
theorem DecisionLaw.ne_database (h : DecisionLaw s idempotencyKey run result) :
    result ≠ .error .database := by
  rintro rfl
  by_cases hused : ∀ key existing, Asked idempotencyKey key → ¬Used s key existing
  · by_cases hbusy : Busy s run.meetingKey
    · obtain ⟨detail, hdetail⟩ := h.conflict.mpr (Or.inr ⟨hused, hbusy⟩)
      cases hdetail
    · cases h.created hused hbusy
  · push Not at hused
    obtain ⟨key, existing, hasked, hexisting⟩ := hused
    by_cases hmeeting : existing.meetingKey = run.meetingKey
    · cases (h.existing existing).mpr ⟨key, hasked, hexisting, hmeeting⟩
    · obtain ⟨detail, hdetail⟩ := h.conflict.mpr
        (Or.inl ⟨key, existing, hasked, hexisting, hmeeting⟩)
      cases hdetail

section ways

variable {key : String}

/-- A run with the key, of the same meeting. -/
theorem law_same (hs : Stored s) (hasked : Asked idempotencyKey key)
    (hused : Used s key existing) (hmeeting : existing.meetingKey = run.meetingKey) :
    DecisionLaw s idempotencyKey run (.ok ((existing, false), s)) := by
  have honly : ∀ other found, Asked idempotencyKey other → Used s other found →
      found = existing := by
    intro other found hother hfound
    obtain rfl := hasked.unique hother
    exact hfound.unique hs hused
  constructor
  · intro found
    constructor
    · intro heq
      obtain rfl := congrArg (fun r => r.1.1) (Except.ok.inj heq)
      exact ⟨key, hasked, hused, hmeeting⟩
    · rintro ⟨other, hother, hfound, -⟩
      rw [honly other found hother hfound]
  · constructor
    · rintro ⟨detail, hdetail⟩
      cases hdetail
    · rintro (⟨other, found, hother, hfound, hne⟩ | ⟨hunused, -⟩)
      · rw [honly other found hother hfound] at hne
        exact absurd hmeeting hne
      · exact absurd hused (hunused key existing hasked)
  · intro hunused
    exact absurd hused (hunused key existing hasked)

/-- A run with the key, of another meeting. -/
theorem law_other (hs : Stored s) (hasked : Asked idempotencyKey key)
    (hused : Used s key existing) (hmeeting : existing.meetingKey ≠ run.meetingKey) :
    DecisionLaw s idempotencyKey run (.error usedElsewhere) := by
  constructor
  · intro found
    constructor
    · intro heq
      cases heq
    · rintro ⟨other, hother, hfound, hsame⟩
      obtain rfl := hasked.unique hother
      rw [hfound.unique hs hused] at hsame
      exact absurd hsame hmeeting
  · constructor
    · intro _
      exact Or.inl ⟨key, existing, hasked, hused, hmeeting⟩
    · intro _
      exact ⟨_, rfl⟩
  · intro hunused
    exact absurd hused (hunused key existing hasked)

/-- No run with the key, and an active run of the meeting. -/
theorem law_busy (hunused : Unused s idempotencyKey) (hbusy : Busy s run.meetingKey) :
    DecisionLaw s idempotencyKey run (.error alreadyActive) := by
  constructor
  · intro found
    constructor
    · intro heq
      cases heq
    · rintro ⟨key, hasked, hused, -⟩
      exact absurd hused ((hunused key hasked).2 found)
  · constructor
    · intro _
      exact Or.inr ⟨fun key existing hasked => (hunused key hasked).2 existing, hbusy⟩
    · intro _
      exact ⟨_, rfl⟩
  · intro _ hfree
    exact absurd hbusy hfree

/-- No run with the key, and no active run of the meeting. -/
theorem law_created (hunused : Unused s idempotencyKey) (hfree : ¬Busy s run.meetingKey) :
    DecisionLaw s idempotencyKey run (.ok ((run, true), s.tick.tick.insert run)) := by
  constructor
  · intro found
    constructor
    · intro heq
      cases heq
    · rintro ⟨key, hasked, hused, -⟩
      exact absurd hused ((hunused key hasked).2 found)
  · constructor
    · rintro ⟨detail, hdetail⟩
      cases hdetail
    · rintro (⟨key, existing, hasked, hused, -⟩ | ⟨-, hbusy⟩)
      · exact absurd hused ((hunused key hasked).2 existing)
      · exact absurd hbusy hfree
  · intro _ _
    rfl

end ways

section inserts

/-- A new run clashes with none but those that have its empty key. -/
theorem apart_iff_unlike (hfresh : s.rows run.id = none)
    (hunused : Unused s run.idempotencyKey) (hfree : ¬Busy s run.meetingKey) :
    Apart s run ↔ (run.idempotencyKey = some "" → ∀ existing, ¬Used s "" existing) := by
  constructor
  · intro hap hempty existing hused
    obtain ⟨b, hb⟩ := hused.1
    have hsome : run.idempotencyKey.isSome := by
      rw [hempty]
      rfl
    exact hap.keys b existing hb hsome (hused.2.trans hempty.symm)
  · intro hunlike
    constructor
    · exact hfresh
    · intro b existing hb hsome hkey
      obtain ⟨key, hrun⟩ := Option.isSome_iff_exists.mp hsome
      have hused : Used s key existing := ⟨⟨b, hb⟩, hkey.trans hrun⟩
      by_cases hempty : key = ""
      · subst hempty
        exact hunlike hrun existing hused
      · exact (hunused key ⟨hrun, hempty⟩).2 existing hused
    · intro b existing hb hmeeting hactive
      exact absurd ⟨b, existing, hb, hmeeting, hactive⟩ hfree

theorem createOrGet_clash (hs : Stored s) (hn : normalizeMeetingUrl admits u = .ok meeting)
    (hfits : fits (queuedRun clock s id meeting displayName (some "")) = true)
    (hused : Used s "" existing) :
    createOrGet admits clock s id u displayName (some "") = .error alreadyActive := by
  have hdecided := createOrGet_decided hs hn clock id displayName (some "")
  have hnever : ∀ key, ¬Asked (some "") key :=
    fun key hasked => hasked.2 (Option.some.inj hasked.1).symm
  generalize createOrGet admits clock s id u displayName (some "") = result at hdecided
  cases hdecided with
  | unsendable hasked => exact absurd hasked (hnever _)
  | same hasked => exact absurd hasked (hnever _)
  | other hasked => exact absurd hasked (hnever _)
  | busy => rfl
  | unfit _ _ hbad =>
    rw [hfits] at hbad
    cases hbad
  | clash => rfl
  | created _ _ _ hap =>
    obtain ⟨b, hb⟩ := hused.1
    exact absurd hused.2 (hap.keys b existing hb rfl)

theorem regular_of_used {key meetingKey : String} (hasked : Asked idempotencyKey key)
    (hused : Used s key existing) (hgood : sendable key = true) :
    Regular admits s u meetingKey displayName idempotencyKey := by
  constructor
  · intro other hother
    rw [← hasked.unique hother]
    exact hgood
  · intro hunused
    exact absurd hused (hunused key existing hasked)
  · intro hunused
    exact absurd hused (hunused key existing hasked)

theorem regular_of_busy {meetingKey : String} (hunused : Unused s idempotencyKey)
    (hbusy : Busy s meetingKey) :
    Regular admits s u meetingKey displayName idempotencyKey := by
  constructor
  · intro key hasked
    exact (hunused key hasked).1
  · intro _ hfree
    exact absurd hbusy hfree
  · intro _ hfree
    exact absurd hbusy hfree

end inserts

/-- The law is kept exactly about the regular requests. -/
theorem decision_law_iff (admits : Text → Bool) (clock : ℕ → ℕ) (s : Runs) (id : ℕ) (u : Text)
    (meeting : Text × Text) (displayName idempotencyKey : Option String)
    (hs : Reachable admits clock s) (hn : normalizeMeetingUrl admits u = .ok meeting)
    (hfresh : s.rows id = none) :
    DecisionLaw s idempotencyKey (queuedRun clock s id meeting displayName idempotencyKey)
        (createOrGet admits clock s id u displayName idempotencyKey) ↔
      Regular admits s u (String.ofList meeting.2) displayName idempotencyKey := by
  obtain ⟨segment, hsegment, hshape⟩ := shaped_of_normalize hn
  have hfits := fits_queuedRun hshape clock s id displayName idempotencyKey
  have hdecided := createOrGet_decided hs.stored hn clock id displayName idempotencyKey
  constructor
  · intro hlaw
    have hno := hlaw.ne_database
    have hcreated := hlaw.created
    generalize createOrGet admits clock s id u displayName idempotencyKey = result at *
    cases hdecided with
    | unsendable => exact absurd rfl hno
    | unfit => exact absurd rfl hno
    | same hasked hused hgood => exact regular_of_used hasked hused hgood
    | other hasked hused hgood => exact regular_of_used hasked hused hgood
    | busy hunused hbusy => exact regular_of_busy hunused hbusy
    | clash hunused hfree =>
      cases hcreated (fun key existing hasked => (hunused key hasked).2 existing) hfree
    | created hunused hfree hgood hap =>
      have hroom := hfits.mp hgood
      constructor
      · intro key hasked
        exact (hunused key hasked).1
      · intro _ _
        rw [hsegment]
        exact ⟨decide_eq_true hroom.1, hroom.2⟩
      · intro _ _
        exact (apart_iff_unlike hfresh hunused hfree).mp hap
  · intro hregular
    have hnone : Unused s idempotencyKey →
        ∀ key existing, Asked idempotencyKey key → ¬Used s key existing :=
      fun hunused key existing hasked => (hunused key hasked).2 existing
    generalize createOrGet admits clock s id u displayName idempotencyKey = result at *
    cases hdecided with
    | unsendable hasked hbad =>
      rw [hregular.sendable _ hasked] at hbad
      cases hbad
    | same hasked hused _ hmeeting => exact law_same hs.stored hasked hused hmeeting
    | other hasked hused _ hmeeting => exact law_other hs.stored hasked hused hmeeting
    | busy hunused hbusy => exact law_busy hunused hbusy
    | unfit hunused hfree hbad =>
      have hroom := hregular.room (hnone hunused) hfree
      rw [hsegment, Option.all_some, decide_eq_true_eq] at hroom
      rw [hfits.mpr hroom] at hbad
      cases hbad
    | clash hunused hfree _ hnear =>
      have hunlike := hregular.unlike (hnone hunused) hfree
      exact absurd ((apart_iff_unlike hfresh hunused hfree).mpr hunlike) hnear
    | created hunused hfree => exact law_created hunused hfree

/-- A request for a meeting whose row has room is regular with any key that has. -/
theorem regular_canonical {code : Text} {key meetingKey : String} (hcode : isCode code = true)
    (hlen : code.length ≤ 240) (hkey : fitsColumn 128 key = true) (hne : key ≠ "") :
    Regular (fun _ => true) s (canonical code).1 meetingKey none (some key) := by
  constructor
  · rintro asked ⟨hasked, -⟩
    obtain rfl := Option.some.inj hasked
    exact ((Bool.and_eq_true _ _).mp hkey).2
  · intro _ _
    exact ⟨segmentOf_canonical hcode hlen, rfl, hkey⟩
  · intro _ _ hempty
    exact absurd (Option.some.inj hempty) hne

def otherCode : Text := "klm-nopq-rst".toList

theorem isCode_otherCode : isCode otherCode = true := by decide

/-- The run of a first request, with a key or none. -/
def firstRun (idempotencyKey : Option String) : BotRun :=
  queuedRun (fun n => n) {} 0 (canonical someCode) none idempotencyKey

/-- The store after that request. -/
def firstStore (idempotencyKey : Option String) : Runs :=
  step (fun _ => true) (fun n => n) {} (.createOrGet 0 (canonical someCode).1 none idempotencyKey)

theorem firstStore_eq (hkey : idempotencyKey.all (fitsColumn 128) = true) :
    firstStore idempotencyKey = ({} : Runs).tick.tick.insert (firstRun idempotencyKey) := by
  have hroom : someCode.length ≤ 240 ∧ (none : Option String).all (fitsColumn 128) = true ∧
      idempotencyKey.all (fitsColumn 128) = true := ⟨by decide, rfl, hkey⟩
  have hfits := (fits_queuedRun (shaped_canonical isCode_someCode) (fun n => n) {} 0 none
    idempotencyKey).mpr hroom
  have hcreated : createOrGet (fun _ => true) (fun n => n) {} 0 (canonical someCode).1 none
      idempotencyKey = .ok ((firstRun idempotencyKey, true),
        ({} : Runs).tick.tick.insert (firstRun idempotencyKey)) :=
    (createOrGet_empty (normalize_of_isCode isCode_someCode _)).trans (if_pos hfits)
  rw [firstStore, step, hcreated]

theorem reachable_firstStore (idempotencyKey : Option String) :
    Reachable (fun _ => true) (fun n => n) (firstStore idempotencyKey) := ⟨[_], rfl⟩

/-- After a request with a key, the same request again, and one with another key for another
meeting. -/
theorem second_request_decided :
    DecisionLaw (firstStore (some "req-1")) (some "req-1")
        (queuedRun (fun n => n) (firstStore (some "req-1")) 1 (canonical someCode) none
          (some "req-1"))
        (createOrGet (fun _ => true) (fun n => n) (firstStore (some "req-1")) 1
          (canonical someCode).1 none (some "req-1")) ∧
      DecisionLaw (firstStore (some "req-1")) (some "req-2")
        (queuedRun (fun n => n) (firstStore (some "req-1")) 1 (canonical otherCode) none
          (some "req-2"))
        (createOrGet (fun _ => true) (fun n => n) (firstStore (some "req-1")) 1
          (canonical otherCode).1 none (some "req-2")) := by
  have hreach := reachable_firstStore (some "req-1")
  have hfresh : (firstStore (some "req-1")).rows 1 = none := by
    rw [firstStore_eq (show (some "req-1").all (fitsColumn 128) = true by decide)]
    rfl
  exact ⟨(decision_law_iff _ _ _ 1 _ _ none _ hreach (normalize_of_isCode isCode_someCode _)
      hfresh).mpr (regular_canonical isCode_someCode (by decide) (by decide) (by decide)),
    (decision_law_iff _ _ _ 1 _ _ none _ hreach (normalize_of_isCode isCode_otherCode _)
      hfresh).mpr (regular_canonical isCode_otherCode (by decide) (by decide) (by decide))⟩

/-- After a request with an empty key, one for another meeting with an empty key is a conflict with
a run that is not of its meeting. -/
theorem empty_key_conflict :
    Reachable (fun _ => true) (fun n => n) (firstStore (some "")) ∧
      createOrGet (fun _ => true) (fun n => n) (firstStore (some "")) 1 (canonical otherCode).1 none
        (some "") = .error alreadyActive ∧
      ¬DecisionLaw (firstStore (some "")) (some "")
        (queuedRun (fun n => n) (firstStore (some "")) 1 (canonical otherCode) none (some ""))
        (createOrGet (fun _ => true) (fun n => n) (firstStore (some "")) 1 (canonical otherCode).1
          none (some "")) := by
  have hreach := reachable_firstStore (some "")
  have hstore := firstStore_eq (show (some "").all (fitsColumn 128) = true by decide)
  have hroom : otherCode.length ≤ 240 ∧ (none : Option String).all (fitsColumn 128) = true ∧
      (some "").all (fitsColumn 128) = true := by decide
  have hfits := (fits_queuedRun (shaped_canonical isCode_otherCode) (fun n => n)
    (firstStore (some "")) 1 none (some "")).mpr hroom
  have hrows : ∀ b run, (firstStore (some "")).rows b = some run → run = firstRun (some "") := by
    intro b run hb
    rw [hstore] at hb
    rcases rows_insert hb with ⟨-, heq⟩ | hnone
    · exact heq
    · cases hnone
  have hused : Used (firstStore (some "")) "" (firstRun (some "")) := by
    refine ⟨⟨0, ?_⟩, rfl⟩
    rw [hstore]
    rfl
  have hn := normalize_of_isCode isCode_otherCode fun _ => true
  have hclash := createOrGet_clash hreach.stored hn hfits hused
  refine ⟨hreach, hclash, fun hlaw => ?_⟩
  rw [hclash] at hlaw
  have hnever : ∀ key existing, Asked (some "") key → ¬Used (firstStore (some "")) key existing :=
    fun key existing hasked => absurd (Option.some.inj hasked.1).symm hasked.2
  have hfree : ¬Busy (firstStore (some "")) (String.ofList (canonical otherCode).2) := by
    rintro ⟨b, run, hb, hkey, -⟩
    rw [hrows b run hb] at hkey
    have hcode := (canonical_snd_eq _ _).mp (String.ofList_injective hkey)
    revert hcode
    decide
  cases hlaw.created hnever hfree

end Fakery.Requests

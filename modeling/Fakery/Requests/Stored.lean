import Fakery.Requests.Create
import Fakery.Meetings.Canonical

/-! What the rows of every reachable store satisfy, and what a request makes of a store by them. -/
namespace Fakery.Requests
open Fakery.Bots Fakery.Core Fakery.Meetings Fakery.Storage

variable {admits : Text → Bool} {clock : ℕ → ℕ} {s s' : Runs} {run run' mid : BotRun}
  {b id now : ℕ} {target : BotStatus} {code : String}

section rows

/-- A row after a change: what names it is as it was, and it has not become active. -/
structure Follows (run run' : BotRun) : Prop where
  id : run'.id = run.id
  idempotencyKey : run'.idempotencyKey = run.idempotencyKey
  meetingKey : run'.meetingKey = run.meetingKey
  active : Db.active run'.status = true → Db.active run.status = true

theorem Follows.refl (run : BotRun) : Follows run run := ⟨rfl, rfl, rfl, fun h => h⟩

theorem Follows.trans (h : Follows run mid) (h' : Follows mid run') : Follows run run' := by
  constructor
  · rw [h'.id, h.id]
  · rw [h'.idempotencyKey, h.idempotencyKey]
  · rw [h'.meetingKey, h.meetingKey]
  · exact fun ha => h.active (h'.active ha)

theorem active_of_canTransition {current : BotStatus} (h : canTransition current target = true) :
    Db.active current = true := by
  cases current with
  | completed => cases h
  | failed => cases h
  | _ => rfl

theorem follows_advance (h : run.advance target now = .ok run') : Follows run run' := by
  rcases BotRun.advance_ok h with ⟨rfl, -⟩ | ⟨rfl, hc⟩
  · exact Follows.refl run'
  · exact ⟨rfl, rfl, rfl, fun _ => active_of_canTransition hc⟩

theorem follows_flushed (run : BotRun) (moment : ℕ) (h : Follows mid run') :
    Follows mid (BotRun.flushed run moment run') := by
  rcases BotRun.flushed_cases run moment run' with hflushed | hflushed
  · rw [hflushed]
    exact h
  · rw [hflushed]
    exact h.trans ⟨rfl, rfl, rfl, fun ha => ha⟩

theorem follows_cancel (h : run.cancel now = .ok run') : Follows run run' := by
  have hmark : Follows run run.cancelling := ⟨rfl, rfl, rfl, fun ha => ha⟩
  unfold BotRun.cancel at h
  split_ifs at h
  · exact Except.ok.inj h ▸ Follows.refl run
  · exact hmark.trans (follows_advance h)

theorem follows_failRun (h : run.failRun code now = .ok run') : Follows run run' := by
  have hmark : Follows run (run.failing code) := ⟨rfl, rfl, rfl, fun ha => ha⟩
  unfold BotRun.failRun at h
  split_ifs at h
  · exact Except.ok.inj h ▸ Follows.refl run
  · exact hmark.trans (follows_advance h)

end rows

/-- No two rows have one key, and no two active rows have one meeting. -/
structure Stored (s : Runs) : Prop where
  located : ∀ b run, s.rows b = some run → run.id = b ∧ b ∈ s.ids
  named : ∀ b run, s.rows b = some run → run.meetingKey ≠ ""
  keys : ∀ b c run run', s.rows b = some run → s.rows c = some run' →
    run.idempotencyKey.isSome → run.idempotencyKey = run'.idempotencyKey → b = c
  meetings : ∀ b c run run', s.rows b = some run → s.rows c = some run' →
    run.meetingKey = run'.meetingKey → Db.active run.status = true →
    Db.active run'.status = true → b = c

theorem stored_empty : Stored {} := by
  constructor
  · intro b run hrow
    cases hrow
  · intro b run hrow
    cases hrow
  · intro b c run run' hrow
    cases hrow
  · intro b c run run' hrow
    cases hrow

section changes

theorem Stored.tick (h : Stored s) : Stored s.tick :=
  ⟨h.located, h.named, h.keys, h.meetings⟩

/-- A row that is replaced. -/
theorem rows_put {c : ℕ} (hrow : (s.put b run run').rows c = some mid) :
    c = b ∧ mid = run' ∨ c ≠ b ∧ s.rows c = some mid := by
  by_cases hb : c = b
  · subst hb
    simp only [Runs.put, Function.update_self] at hrow
    exact Or.inl ⟨rfl, (Option.some.inj hrow).symm⟩
  · simp only [Runs.put, Function.update_of_ne hb] at hrow
    exact Or.inr ⟨hb, hrow⟩

/-- Every row of the new store follows one of the old. -/
theorem follows_put {c : ℕ} (hrow : s.rows b = some run) (hf : Follows run run')
    (hnew : (s.put b run run').rows c = some mid) :
    ∃ old, s.rows c = some old ∧ Follows old mid := by
  rcases rows_put hnew with ⟨rfl, rfl⟩ | ⟨-, hold⟩
  · exact ⟨run, hrow, hf⟩
  · exact ⟨mid, hold, Follows.refl mid⟩

theorem Stored.put (h : Stored s) (hrow : s.rows b = some run) (hf : Follows run run') :
    Stored (s.put b run run') := by
  constructor
  · intro c mid hnew
    obtain ⟨old, hold, hfollows⟩ := follows_put hrow hf hnew
    rw [hfollows.id]
    exact h.located c old hold
  · intro c mid hnew
    obtain ⟨old, hold, hfollows⟩ := follows_put hrow hf hnew
    rw [hfollows.meetingKey]
    exact h.named c old hold
  · intro c d mid mid' hc hd hsome hkeys
    obtain ⟨old, hold, hfollows⟩ := follows_put hrow hf hc
    obtain ⟨old', hold', hfollows'⟩ := follows_put hrow hf hd
    rw [hfollows.idempotencyKey] at hsome hkeys
    rw [hfollows'.idempotencyKey] at hkeys
    exact h.keys c d old old' hold hold' hsome hkeys
  · intro c d mid mid' hc hd hmeetings hactive hactive'
    obtain ⟨old, hold, hfollows⟩ := follows_put hrow hf hc
    obtain ⟨old', hold', hfollows'⟩ := follows_put hrow hf hd
    rw [hfollows.meetingKey, hfollows'.meetingKey] at hmeetings
    exact h.meetings c d old old' hold hold' hmeetings (hfollows.active hactive)
      (hfollows'.active hactive')

theorem stored_change {f : ℕ → BotRun → Except TwinError BotRun} (h : Stored s)
    (hf : ∀ now run run', f now run = .ok run' → Follows run run')
    (hc : s.change clock b f = .ok s') : Stored s' := by
  unfold Runs.change at hc
  cases hrow : s.rows b with
  | none =>
    rw [hrow] at hc
    cases hc
  | some run =>
    rw [hrow] at hc
    cases hrun : f (s.now clock) run with
    | error e =>
      simp only [hrun] at hc
      cases hc
    | ok run' =>
      simp only [hrun] at hc
      have hfollows := follows_flushed run (s.tick.now clock) (hf _ run run' hrun)
      have hput := h.tick.put hrow hfollows
      exact Except.ok.inj hc ▸ hput.tick

/-- A row that clashes with none. -/
structure Apart (s : Runs) (run : BotRun) : Prop where
  id : s.rows run.id = none
  keys : ∀ b run', s.rows b = some run' → run.idempotencyKey.isSome →
    run'.idempotencyKey ≠ run.idempotencyKey
  meetings : ∀ b run', s.rows b = some run' → run'.meetingKey = run.meetingKey →
    Db.active run'.status = true → Db.active run.status = false

theorem rows_insert {c : ℕ} (hrow : (s.insert run).rows c = some mid) :
    c = run.id ∧ mid = run ∨ s.rows c = some mid := by
  by_cases hb : c = run.id
  · subst hb
    simp only [Runs.insert, Function.update_self] at hrow
    exact Or.inl ⟨rfl, (Option.some.inj hrow).symm⟩
  · simp only [Runs.insert, Function.update_of_ne hb] at hrow
    exact Or.inr hrow

theorem Stored.insert (h : Stored s) (hap : Apart s run) (hname : run.meetingKey ≠ "") :
    Stored (s.insert run) := by
  constructor
  · intro c mid hnew
    rcases rows_insert hnew with ⟨rfl, rfl⟩ | hold
    · exact ⟨rfl, List.mem_append_right _ (List.mem_singleton.mpr rfl)⟩
    · have hloc := h.located c mid hold
      exact ⟨hloc.1, List.mem_append_left _ hloc.2⟩
  · intro c mid hnew
    rcases rows_insert hnew with ⟨rfl, rfl⟩ | hold
    · exact hname
    · exact h.named c mid hold
  · intro c d mid mid' hc hd hsome hkeys
    rcases rows_insert hc with ⟨rfl, rfl⟩ | hold <;> rcases rows_insert hd with ⟨rfl, rfl⟩ | hold'
    · rfl
    · exact absurd hkeys.symm (hap.keys d mid' hold' hsome)
    · exact absurd hkeys (hap.keys c mid hold (hkeys ▸ hsome))
    · exact h.keys c d mid mid' hold hold' hsome hkeys
  · intro c d mid mid' hc hd hmeetings hactive hactive'
    rcases rows_insert hc with ⟨rfl, rfl⟩ | hold <;> rcases rows_insert hd with ⟨rfl, rfl⟩ | hold'
    · rfl
    · rw [hap.meetings d mid' hold' hmeetings.symm hactive'] at hactive
      cases hactive
    · rw [hap.meetings c mid hold hmeetings hactive] at hactive'
      cases hactive'
    · exact h.meetings c d mid mid' hold hold' hmeetings hactive hactive'

theorem clashes_iff : Db.clashes run (some run') = true ↔ run'.id = run.id ∨
    (run'.idempotencyKey.isSome ∧ run'.idempotencyKey = run.idempotencyKey) ∨
    (run'.meetingKey = run.meetingKey ∧ Db.active run'.status = true ∧
      Db.active run.status = true) := by
  simp [Db.clashes, or_assoc, and_assoc]

/-- What the unique indexes check. -/
theorem apart_iff (h : Stored s) : Apart s run ↔
    ((s.rows run.id).isSome || s.ids.any fun b => Db.clashes run (s.rows b)) = false := by
  rw [Bool.or_eq_false_iff, Option.isSome_eq_false_iff, Option.isNone_iff_eq_none,
    List.any_eq_false]
  constructor
  · intro hap
    refine ⟨hap.id, fun b _ hclash => ?_⟩
    cases hrow : s.rows b with
    | none =>
      rw [hrow] at hclash
      cases hclash
    | some run' =>
      rw [hrow, clashes_iff] at hclash
      rcases hclash with hid | ⟨hsome, hkey⟩ | ⟨hmeeting, hactive, hother⟩
      · have hfree := hap.id
        rw [← hid, (h.located b run' hrow).1, hrow] at hfree
        cases hfree
      · exact hap.keys b run' hrow (hkey ▸ hsome) hkey
      · rw [hap.meetings b run' hrow hmeeting hactive] at hother
        cases hother
  · rintro ⟨hid, hnone⟩
    have hclash : ∀ b run', s.rows b = some run' → ¬Db.clashes run (some run') = true := by
      intro b run' hrow
      have hb := hnone b (h.located b run' hrow).2
      rwa [hrow] at hb
    constructor
    · exact hid
    · intro b run' hrow hsome hkey
      exact hclash b run' hrow (clashes_iff.mpr (Or.inr (Or.inl ⟨hkey ▸ hsome, hkey⟩)))
    · intro b run' hrow hmeeting hactive
      by_contra hother
      have htrue := Bool.not_eq_false _ ▸ hother
      exact hclash b run' hrow (clashes_iff.mpr (Or.inr (Or.inr ⟨hmeeting, hactive, htrue⟩)))

end changes

section decisions

variable {u : Text} {meeting : Text × Text} {displayName idempotencyKey : Option String}
  {key meetingKey : String}

/-- The key that is looked up. -/
def Asked (idempotencyKey : Option String) (key : String) : Prop :=
  idempotencyKey = some key ∧ key ≠ ""

def Used (s : Runs) (key : String) (run : BotRun) : Prop :=
  (∃ b, s.rows b = some run) ∧ run.idempotencyKey = some key

/-- No run has the key that is looked up, if there is one. -/
def Unused (s : Runs) (idempotencyKey : Option String) : Prop :=
  ∀ key, Asked idempotencyKey key → sendable key = true ∧ ∀ run, ¬Used s key run

/-- The meeting has an active run. -/
def Busy (s : Runs) (meetingKey : String) : Prop :=
  ∃ b run, s.rows b = some run ∧ run.meetingKey = meetingKey ∧ Db.active run.status = true

theorem of_head?_select {p : BotRun → Bool} (h : (s.select p).head? = some run) :
    (∃ b, s.rows b = some run) ∧ p run = true := by
  have hmem := List.mem_of_head? h
  obtain ⟨b, -, hb⟩ := List.mem_filterMap.mp hmem
  have hfilter := Option.filter_eq_some_iff.mp hb
  exact ⟨⟨b, hfilter.1⟩, hfilter.2⟩

theorem head?_select_eq_none (h : Stored s) {p : BotRun → Bool} :
    (s.select p).head? = none ↔ ∀ b run, s.rows b = some run → p run = false := by
  rw [List.head?_eq_none_iff, Runs.select, List.filterMap_eq_nil_iff]
  constructor
  · intro hnone b run hrow
    have hb := hnone b (h.located b run hrow).2
    rw [hrow] at hb
    simpa using hb
  · intro hnone b _
    cases hrow : s.rows b with
    | none => rfl
    | some run => simp [hnone b run hrow]

theorem Used.unique (h : Stored s) (hu : Used s key run) (hu' : Used s key run') : run = run' := by
  obtain ⟨⟨b, hb⟩, hkey⟩ := hu
  obtain ⟨⟨c, hc⟩, hkey'⟩ := hu'
  have heq := h.keys b c run run' hb hc (by rw [hkey]; rfl) (by rw [hkey, hkey'])
  rw [heq, hc] at hb
  exact (Option.some.inj hb).symm

theorem head?_key (h : Stored s) :
    (s.select fun run => run.idempotencyKey = some key).head? = some run ↔ Used s key run := by
  constructor
  · intro hhead
    have hselect := of_head?_select hhead
    exact ⟨hselect.1, of_decide_eq_true hselect.2⟩
  · intro hused
    cases hhead : (s.select fun run => run.idempotencyKey = some key).head? with
    | none =>
      obtain ⟨⟨b, hb⟩, hkey⟩ := hused
      have hnot := (head?_select_eq_none h).mp hhead b run hb
      exact absurd hkey (of_decide_eq_false hnot)
    | some found =>
      have hselect := of_head?_select hhead
      have hfound : Used s key found := ⟨hselect.1, of_decide_eq_true hselect.2⟩
      rw [hfound.unique h hused]

theorem head?_meeting (h : Stored s) (meetingKey : String) :
    (s.select fun run => run.meetingKey = meetingKey && Db.active run.status).head?.isSome ↔
      Busy s meetingKey := by
  constructor
  · intro hsome
    obtain ⟨run, hhead⟩ := Option.isSome_iff_exists.mp hsome
    obtain ⟨⟨b, hb⟩, hp⟩ := of_head?_select hhead
    have hboth := (Bool.and_eq_true _ _).mp hp
    exact ⟨b, run, hb, of_decide_eq_true hboth.1, hboth.2⟩
  · rintro ⟨b, run, hb, hkey, hactive⟩
    by_contra hnot
    have hhead := Option.not_isSome_iff_eq_none.mp hnot
    have hfalse := (head?_select_eq_none h).mp hhead b run hb
    simp [hkey, hactive] at hfalse

/-- What the pair made of a code of `size` characters looks like. -/
structure Shaped (size : ℕ) (meeting : Text × Text) : Prop where
  url : meeting.1.length = size + 24 ∧ sendable (String.ofList meeting.1) = true
  key : meeting.2.length = size + 16 ∧ sendable (String.ofList meeting.2) = true

theorem shaped_canonical {code : Text} (h : isCode code = true) :
    Shaped code.length (canonical code) := by
  have hnul : '\x00' ∉ code := by
    intro hmem
    have hpattern := patternChar_of_isCode h _ hmem
    revert hpattern
    decide
  have hhost : '\x00' ∉ https ∧ '\x00' ∉ meetHost := by decide
  have hlengths : https.length = 5 ∧ meetHost.length = 15 := by decide
  refine ⟨⟨?_, ?_⟩, ?_, ?_⟩
  · simp only [canonical, urlunsplit, List.length_append, List.length_cons, hlengths.1, hlengths.2]
    omega
  · simp [sendable, canonical, urlunsplit, hhost.1, hhost.2, hnul]
  · simp only [canonical, List.length_append, List.length_cons, hlengths.2]
    omega
  · simp [sendable, canonical, hhost.2, hnul]

theorem shaped_of_normalize (h : normalizeMeetingUrl admits u = .ok meeting) :
    ∃ segment, segmentOf admits u = some segment ∧ Shaped segment.length meeting := by
  obtain ⟨segment, hsegment, hcode, rfl⟩ := normalize_segment h
  have hlength : (lower segment).length = segment.length := List.length_map _
  exact ⟨segment, hsegment, hlength ▸ shaped_canonical hcode⟩

/-- The values that a new run has of itself. -/
theorem fits_defaults : fitsColumn 32 "queued" = true ∧ fitsColumn 32 "pending" = true ∧
    fitsColumn 16 "pending" = true := by decide

/-- Only the code of the meeting and the texts of the client may be too long. -/
theorem fits_queuedRun {size : ℕ} (h : Shaped size meeting) (clock : ℕ → ℕ) (s : Runs) (id : ℕ)
    (displayName idempotencyKey : Option String) :
    fits (queuedRun clock s id meeting displayName idempotencyKey) = true ↔
      size ≤ 240 ∧ displayName.all (fitsColumn 128) = true ∧
        idempotencyKey.all (fitsColumn 128) = true := by
  have hurl : fitsColumn 512 (String.ofList meeting.1) = true ↔ size ≤ 488 := by
    simp only [fitsColumn, h.url.2, String.length_ofList, h.url.1, Bool.and_true, decide_eq_true_eq]
    omega
  have hkey : fitsColumn 256 (String.ofList meeting.2) = true ↔ size ≤ 240 := by
    simp only [fitsColumn, h.key.2, String.length_ofList, h.key.1, Bool.and_true, decide_eq_true_eq]
    omega
  obtain ⟨hqueued, hpending, hdispatch⟩ := fits_defaults
  simp only [fits, textColumns, queuedRun, BotStatus.value, List.all_cons, List.all_nil,
    Option.all_some, Option.all_none, Bool.and_eq_true, hurl, hkey, hqueued, hpending, hdispatch]
  constructor
  · intro hall
    exact ⟨hall.2.1, hall.2.2.2.1, hall.2.2.1⟩
  · intro hall
    have hlong : size ≤ 488 := by omega
    simp only [hall, hlong, and_self]

theorem segmentOf_canonical {code : Text} (h : isCode code = true) (hlen : code.length ≤ 240) :
    (segmentOf admits (canonical code).1).all (·.length ≤ 240) = true := by
  obtain ⟨segment, hsegment, -, hcanonical⟩ := normalize_segment (normalize_of_isCode h admits)
  have hlower := (canonical_fst_eq _ _).mp (congrArg Prod.fst hcanonical)
  have hlength : code.length = segment.length :=
    (congrArg List.length hlower).trans (List.length_map _)
  rw [hsegment, Option.all_some, ← hlength]
  exact decide_eq_true hlen

theorem ne_empty_of_normalize (h : normalizeMeetingUrl admits u = .ok meeting) :
    String.ofList meeting.2 ≠ "" := by
  obtain ⟨segment, -, hshape⟩ := shaped_of_normalize h
  intro hempty
  have hlength : (String.ofList meeting.2).length = 0 := by rw [hempty]; rfl
  rw [String.length_ofList, hshape.key.1] at hlength
  omega

abbrev usedElsewhere : CreateError :=
  .problem (makeError "conflict" "Idempotency-Key was already used for another meeting")

abbrev alreadyActive : CreateError :=
  .problem (makeError "conflict" "an active bot already exists for this meeting")

/-- The ways in which a request ends, where `run` is what it may insert. -/
inductive Decided (s : Runs) (idempotencyKey : Option String) (run : BotRun) :
    Except CreateError ((BotRun × Bool) × Runs) → Prop
  | unsendable {key : String} (asked : Asked idempotencyKey key) (bad : sendable key = false) :
      Decided s idempotencyKey run (.error .database)
  | same {key : String} {existing : BotRun} (asked : Asked idempotencyKey key)
      (used : Used s key existing) (good : sendable key = true)
      (meeting : existing.meetingKey = run.meetingKey) :
      Decided s idempotencyKey run (.ok ((existing, false), s))
  | other {key : String} {existing : BotRun} (asked : Asked idempotencyKey key)
      (used : Used s key existing) (good : sendable key = true)
      (meeting : existing.meetingKey ≠ run.meetingKey) :
      Decided s idempotencyKey run (.error usedElsewhere)
  | busy (unused : Unused s idempotencyKey) (busy : Busy s run.meetingKey) :
      Decided s idempotencyKey run (.error alreadyActive)
  | unfit (unused : Unused s idempotencyKey) (free : ¬Busy s run.meetingKey)
      (bad : fits run = false) : Decided s idempotencyKey run (.error .database)
  | clash (unused : Unused s idempotencyKey) (free : ¬Busy s run.meetingKey)
      (good : fits run = true) (near : ¬Apart s run) :
      Decided s idempotencyKey run (.error alreadyActive)
  | created (unused : Unused s idempotencyKey) (free : ¬Busy s run.meetingKey)
      (good : fits run = true) (apart : Apart s run) :
      Decided s idempotencyKey run (.ok ((run, true), s.tick.tick.insert run))

theorem existingKey_of_ne (hne : run.meetingKey ≠ "") :
    existingKey admits run = .ok run.meetingKey := if_neg hne

/-- What the look-up of the key tells. -/
theorem replayed_cases (h : Stored s) (idempotencyKey : Option String) :
    (∃ key, Asked idempotencyKey key ∧ sendable key = false ∧
      replayed s idempotencyKey = .error .database) ∨
    (∃ key existing, Asked idempotencyKey key ∧ Used s key existing ∧ sendable key = true ∧
      replayed s idempotencyKey = .ok (some existing)) ∨
    (Unused s idempotencyKey ∧ replayed s idempotencyKey = .ok none) := by
  cases idempotencyKey with
  | none => exact Or.inr (Or.inr ⟨fun key hasked => (nomatch hasked.1), rfl⟩)
  | some key =>
    by_cases hempty : key = ""
    · have hunused : Unused s (some key) := by
        intro other hasked
        exact absurd ((Option.some.inj hasked.1).symm.trans hempty) hasked.2
      exact Or.inr (Or.inr ⟨hunused, by rw [replayed, if_pos hempty]⟩)
    · have hasked : Asked (some key) key := ⟨rfl, hempty⟩
      have hlook : replayed s (some key) = getByIdempotency s key := by
        rw [replayed, if_neg hempty]
      rw [hlook, getByIdempotency]
      cases hgood : sendable key with
      | false => exact Or.inl ⟨key, hasked, hgood, rfl⟩
      | true =>
        right
        rw [if_pos rfl]
        cases hhead : (s.select fun run => run.idempotencyKey = some key).head? with
        | none =>
          refine Or.inr ⟨fun other hother => ?_, rfl⟩
          obtain rfl := Option.some.inj hother.1
          refine ⟨hgood, fun run hused => ?_⟩
          rw [(head?_key h).mpr hused] at hhead
          cases hhead
        | some existing =>
          exact Or.inl ⟨key, existing, hasked, (head?_key h).mp hhead, hgood, rfl⟩

theorem add_decided (h : Stored s) (run : BotRun) (hunused : Unused s idempotencyKey)
    (hfree : ¬Busy s run.meetingKey) :
    Decided s idempotencyKey run
      (match add s.tick.tick run with
        | .ok s' => .ok ((run, true), s')
        | .error e => .error e) := by
  have hrows : s.tick.tick.rows = s.rows := rfl
  have hids : s.tick.tick.ids = s.ids := rfl
  rw [add, hrows, hids]
  cases hfits : fits run with
  | false => exact Decided.unfit hunused hfree hfits
  | true =>
    cases hclash : (s.rows run.id).isSome || s.ids.any fun b => Db.clashes run (s.rows b) with
    | false => exact Decided.created hunused hfree hfits ((apart_iff h).mpr hclash)
    | true =>
      have hnear : ¬Apart s run := by
        intro hap
        rw [(apart_iff h).mp hap] at hclash
        cases hclash
      exact Decided.clash hunused hfree hfits hnear

theorem createOrGet_decided (h : Stored s) (hn : normalizeMeetingUrl admits u = .ok meeting)
    (clock : ℕ → ℕ) (id : ℕ) (displayName idempotencyKey : Option String) :
    Decided s idempotencyKey (queuedRun clock s id meeting displayName idempotencyKey)
      (createOrGet admits clock s id u displayName idempotencyKey) := by
  obtain ⟨segment, -, hshape⟩ := shaped_of_normalize hn
  unfold createOrGet
  rw [hn]
  dsimp only
  rcases replayed_cases h idempotencyKey with ⟨key, hasked, hbad, hlook⟩ |
    ⟨key, existing, hasked, hused, hgood, hlook⟩ | ⟨hunused, hlook⟩
  · rw [hlook]
    exact Decided.unsendable hasked hbad
  · rw [hlook]
    obtain ⟨b, hb⟩ := hused.1
    simp only [bind, Except.bind, existingKey_of_ne (h.named b existing hb)]
    split_ifs with hmeeting
    · exact Decided.other hasked hused hgood hmeeting
    · exact Decided.same hasked hused hgood (not_not.mp hmeeting)
  · rw [hlook]
    simp only [bind, Except.bind, findActiveMeeting, if_pos hshape.key.2]
    have hbusy := head?_meeting h (String.ofList meeting.2)
    split
    · rename_i found hhead
      rw [hhead] at hbusy
      exact Decided.busy hunused (hbusy.mp rfl)
    · rename_i hhead
      rw [hhead] at hbusy
      have hfree : ¬Busy s (String.ofList meeting.2) := fun hb => by cases hbusy.mpr hb
      have hadd := add_decided h (queuedRun clock s id meeting displayName idempotencyKey) hunused
        hfree
      split at hadd <;> rename_i hresult <;> rw [hresult] <;> exact hadd

end decisions

section runs

theorem stored_perform {xs : List Transaction} (h : Stored s)
    (hx : ∀ x ∈ xs, ∀ s s' : Runs, Stored s → s.commit clock x = .ok s' → Stored s') :
    Stored (s.perform clock xs).1 := by
  induction xs generalizing s with
  | nil => exact h
  | cons x xs ih =>
    simp only [Runs.perform]
    cases hc : s.commit clock x with
    | error e => exact h
    | ok s' =>
      exact ih (hx x List.mem_cons_self s s' h hc) fun y hy => hx y (List.mem_cons_of_mem _ hy)

theorem stored_createOrGet {u : Text} {displayName idempotencyKey : Option String}
    {result : (BotRun × Bool) × Runs} (h : Stored s)
    (hc : createOrGet admits clock s id u displayName idempotencyKey = .ok result) :
    Stored result.2 := by
  cases hn : normalizeMeetingUrl admits u with
  | error e =>
    rw [createOrGet, hn] at hc
    cases hc
  | ok meeting =>
    have hdecided := createOrGet_decided h hn clock id displayName idempotencyKey
    rw [hc] at hdecided
    cases hdecided with
    | same => exact h
    | created hunused hfree hgood hap =>
      have hticked := h.tick.tick
      exact hticked.insert ⟨hap.id, hap.keys, hap.meetings⟩ (ne_empty_of_normalize hn)

theorem stored_step (h : Stored s) (call : Call) : Stored (step admits clock s call) := by
  cases call with
  | createOrGet id u displayName idempotencyKey =>
    simp only [step]
    split
    · rename_i hc
      exact stored_createOrGet h hc
    · exact h
  | cancel b =>
    apply stored_perform h
    intro x hx s s' hs hc
    obtain rfl := List.mem_singleton.mp hx
    exact stored_change hs (fun now run run' => follows_cancel) hc
  | advance b target =>
    simp only [step]
    split
    · rename_i hc
      exact stored_change h (fun now run run' => follows_advance) hc
    · exact h
  | failRun b code restored =>
    apply stored_perform h
    intro x hx s s' hs hc
    rcases List.mem_append.mp hx with hx | hx
    · obtain ⟨artifact, -, rfl⟩ := List.mem_map.mp hx
      apply stored_change (f := fun _ run => .ok (run.recorded artifact).recovered) hs _ hc
      intro now run run' hrun
      exact Except.ok.inj hrun ▸ ⟨rfl, rfl, rfl, fun ha => ha⟩
    · obtain rfl := List.mem_singleton.mp hx
      exact stored_change hs (fun now run run' => follows_failRun) hc

theorem stored_run (h : Stored s) (calls : List Call) :
    Stored (calls.foldl (step admits clock) s) := by
  induction calls generalizing s with
  | nil => exact h
  | cons call calls ih => exact ih (stored_step h call)

theorem Reachable.stored (h : Reachable admits clock s) : Stored s := by
  obtain ⟨calls, rfl⟩ := h
  exact stored_run stored_empty calls

end runs

end Fakery.Requests

import Fakery.Bots.Models
import Fakery.Json.Utf8
import Fakery.Texts.Strings

/-! What a receiver of webhooks can rely on: the body is JSON that says all of an event, and the
signature is for this event and this moment and for no other. -/
namespace Fakery.Webhooks
open Fakery.Bots Fakery.Json Fakery.Storage Fakery.Texts

/-- The identifiers that stand for the numbers of bots, events and segments. -/
structure Ids where
  bot : ℕ → Text
  event : ℕ → Text
  segment : ℕ → Text
  bot_injective : Function.Injective bot
  event_injective : Function.Injective event
  segment_injective : Function.Injective segment

section payloads

variable (ids : Ids)

def text (s : String) : Value := .str s.toList

def statusPayload (botId status eventId : Text) : Value :=
  .obj [("type".toList, text "bot.status_changed"), ("bot_id".toList, .str botId),
    ("status".toList, .str status), ("event_id".toList, .str eventId)]

def segmentPayload (segment : TranscriptSegment) (eventId : Text) : Value :=
  .obj [("type".toList, text "transcript.segment"),
    ("bot_id".toList, .str (ids.bot segment.botRunId)), ("event_id".toList, .str eventId),
    ("segment".toList, .obj [("id".toList, .str (ids.segment segment.id)),
      ("speaker".toList, (segment.speaker.map text).getD .null),
      ("text".toList, text segment.text), ("start_ms".toList, .int segment.startMs),
      ("end_ms".toList, .int segment.endMs)])]

def notesPayload (botId eventId : Text) : Value :=
  .obj [("type".toList, text "notes.completed"), ("bot_id".toList, .str botId),
    ("event_id".toList, .str eventId)]

def payloadJson : Payload → Value
  | .statusChanged botId status eventId =>
    statusPayload (ids.bot botId) status.value.toList (ids.event eventId)
  | .transcriptSegment segment eventId => segmentPayload ids segment (ids.event eventId)
  | .notesCompleted botId eventId => notesPayload (ids.bot botId) (ids.event eventId)

/-- `json.dumps(item.payload, sort_keys=True).encode()` -/
def body (payload : Payload) : Bytes := encode (dumps (payloadJson ids payload))

end payloads

/-- The fields of a datetime in UTC. -/
structure Moment where
  year : ℕ
  month : ℕ
  day : ℕ
  hour : ℕ
  minute : ℕ
  second : ℕ
  microsecond : ℕ
  year_lt : year < 10000
  month_lt : month < 100
  day_lt : day < 100
  hour_lt : hour < 100
  minute_lt : minute < 100
  second_lt : second < 100
  microsecond_lt : microsecond < 1000000

/-- `datetime.isoformat`, which leaves out microseconds that are zero. -/
def isoformat (m : Moment) : Text :=
  pad 4 m.year ++ '-' :: (pad 2 m.month ++ '-' :: (pad 2 m.day ++ 'T' :: (pad 2 m.hour ++ ':' ::
    (pad 2 m.minute ++ ':' :: (pad 2 m.second ++
      ((if m.microsecond = 0 then [] else '.' :: pad 6 m.microsecond) ++ "+00:00".toList))))))

section sign

variable (hmac : Bytes → Bytes → Bytes)

/-- What is signed: the timestamp, a full stop and the body. -/
def message (body : Bytes) (timestamp : Text) : Bytes := encode timestamp ++ 46 :: body

def sign (secret : Text) (body : Bytes) (timestamp : Text) : Text :=
  "sha256=".toList ++ hexdigest (hmac (encode secret) (message body timestamp))

end sign

section fields

variable {ids : Ids} {fields others : List Field} {key : Text} {v w : Value}

/-- A key of one of two dicts that are the same. -/
theorem get?_of_fieldsSame (h : FieldsSame fields others) (hv : get? key fields = some v) :
    ∃ w, get? key others = some w ∧ v.Same w := by
  induction fields with
  | nil => cases hv
  | cons field fields ih =>
    rw [get?] at hv
    split_ifs at hv with hkey
    · cases hv
      exact hkey ▸ h.1
    · exact ih h.2 hv

theorem get?_of_same (key : Text) (h : (Value.obj fields).Same (.obj others))
    (hv : get? key fields = some v) (hw : get? key others = some w) : v.Same w := by
  obtain ⟨fields', heq, -, hsame⟩ := h
  cases heq
  obtain ⟨w', hw', hsame'⟩ := get?_of_fieldsSame hsame hv
  cases hw.symm.trans hw'
  exact hsame'

theorem text_same {s t : Text} (h : (Value.str s).Same (.str t)) : s = t := by
  cases h
  rfl

theorem int_same {m n : ℤ} (h : (Value.int m).Same (.int n)) : m = n := by
  cases h
  rfl

theorem speaker_same {a b : Option String}
    (h : ((a.map text).getD .null).Same ((b.map text).getD .null)) : a = b := by
  cases a with
  | none =>
    cases b with
    | none => rfl
    | some t => cases h
  | some s =>
    cases b with
    | none => cases h
    | some t => rw [String.toList_inj.mp (text_same h)]

end fields

section payloads

variable {ids : Ids} {p q : Payload}

theorem distinct_payloadJson (ids : Ids) (p : Payload) : (payloadJson ids p).Distinct := by
  cases p with
  | statusChanged botId status eventId =>
    rw [payloadJson, statusPayload, Value.Distinct]
    exact ⟨by simp only [List.map_cons, List.map_nil]; decide, trivial, trivial, trivial, trivial,
      trivial⟩
  | transcriptSegment segment eventId =>
    rw [payloadJson, segmentPayload, Value.Distinct]
    refine ⟨by simp only [List.map_cons, List.map_nil]; decide, trivial, trivial, trivial, ?_,
      trivial⟩
    rw [Value.Distinct]
    refine ⟨by simp only [List.map_cons, List.map_nil]; decide, trivial, ?_, trivial, trivial,
      trivial, trivial⟩
    cases segment.speaker with
    | none => trivial
    | some s => trivial
  | notesCompleted botId eventId =>
    rw [payloadJson, notesPayload, Value.Distinct]
    exact ⟨by simp only [List.map_cons, List.map_nil]; decide, trivial, trivial, trivial, trivial⟩

/-- The column of a segment that no payload has. -/
def withoutCreated : Payload → Payload
  | .transcriptSegment segment eventId => .transcriptSegment { segment with createdAt := 0 } eventId
  | p => p

theorem value_injective : Function.Injective BotStatus.value := by
  intro s t h
  cases s <;> cases t <;> first | rfl | exact absurd h (by decide)

/-- Payloads of different types are not the same. -/
theorem type_same {fields others : List Field} {s t : String}
    (h : (Value.obj fields).Same (.obj others)) (hs : get? "type".toList fields = some (text s))
    (ht : get? "type".toList others = some (text t)) : s = t :=
  String.toList_inj.mp (text_same (get?_of_same "type".toList h hs ht))

theorem segment_same {a b : TranscriptSegment} {d e : ℕ}
    (h : (segmentPayload ids a (ids.event d)).Same (segmentPayload ids b (ids.event e))) :
    withoutCreated (.transcriptSegment a d) = withoutCreated (.transcriptSegment b e) := by
  have hbot := get?_of_same "bot_id".toList h rfl rfl
  have hevent := get?_of_same "event_id".toList h rfl rfl
  have hsegment := get?_of_same "segment".toList h rfl rfl
  have hid := get?_of_same "id".toList hsegment rfl rfl
  have hspeaker := get?_of_same "speaker".toList hsegment rfl rfl
  have htext := get?_of_same "text".toList hsegment rfl rfl
  have hstart := get?_of_same "start_ms".toList hsegment rfl rfl
  have hend := get?_of_same "end_ms".toList hsegment rfl rfl
  cases a
  cases b
  simp only [withoutCreated, Payload.transcriptSegment.injEq, TranscriptSegment.mk.injEq]
  exact ⟨⟨ids.segment_injective (text_same hid), ids.bot_injective (text_same hbot),
    speaker_same hspeaker, String.toList_inj.mp (text_same htext), int_same hstart,
    int_same hend, trivial⟩, ids.event_injective (text_same hevent)⟩

/-- A payload as JSON says all of it but when a segment was stored. -/
theorem payloadJson_same_iff :
    (payloadJson ids p).Same (payloadJson ids q) ↔ withoutCreated p = withoutCreated q := by
  constructor
  · intro h
    cases p with
    | statusChanged a s d =>
      cases q with
      | statusChanged b t e =>
        have hbot := get?_of_same "bot_id".toList h rfl rfl
        have hstatus := get?_of_same "status".toList h rfl rfl
        have hevent := get?_of_same "event_id".toList h rfl rfl
        have hst := value_injective (String.toList_inj.mp (text_same hstatus))
        rw [ids.bot_injective (text_same hbot), hst, ids.event_injective (text_same hevent)]
      | transcriptSegment b e => exact absurd (type_same h rfl rfl) (by decide)
      | notesCompleted b e => exact absurd (type_same h rfl rfl) (by decide)
    | transcriptSegment a d =>
      cases q with
      | statusChanged b t e => exact absurd (type_same h rfl rfl) (by decide)
      | transcriptSegment b e => exact segment_same h
      | notesCompleted b e => exact absurd (type_same h rfl rfl) (by decide)
    | notesCompleted a d =>
      cases q with
      | statusChanged b t e => exact absurd (type_same h rfl rfl) (by decide)
      | transcriptSegment b e => exact absurd (type_same h rfl rfl) (by decide)
      | notesCompleted b e =>
        have hbot := get?_of_same "bot_id".toList h rfl rfl
        have hevent := get?_of_same "event_id".toList h rfl rfl
        rw [ids.bot_injective (text_same hbot), ids.event_injective (text_same hevent)]
  · intro h
    have hjson : ∀ r : Payload, payloadJson ids (withoutCreated r) = payloadJson ids r := by
      intro r
      cases r <;> rfl
    rw [same_iff (distinct_payloadJson ids p) (distinct_payloadJson ids q), ← hjson p, h, hjson q]

theorem body_eq_iff : body ids p = body ids q ↔ withoutCreated p = withoutCreated q := by
  rw [body, body, encode_dumps_eq_iff (distinct_payloadJson ids p) (distinct_payloadJson ids q),
    payloadJson_same_iff]

end payloads

section moments

variable {m n : Moment}

theorem pad_append {w a b : ℕ} {s t : Text} (ha : (Nat.toDigits 10 a).length ≤ w)
    (hb : (Nat.toDigits 10 b).length ≤ w) (h : pad w a ++ s = pad w b ++ t) : a = b ∧ s = t := by
  have hlen : (pad w a).length = (pad w b).length := (length_pad ha).trans (length_pad hb).symm
  obtain ⟨hpad, hrest⟩ := List.append_inj h hlen
  exact ⟨pad_injective w hpad, hrest⟩

theorem two_digits {a : ℕ} (h : a < 100) : (Nat.toDigits 10 a).length ≤ 2 :=
  (Nat.length_toDigits_le_iff (by decide) (by decide)).mpr h

/-- The text of a moment is that of no other. -/
theorem isoformat_injective (h : isoformat m = isoformat n) : m = n := by
  have hfour : ∀ {a}, a < 10000 → (Nat.toDigits 10 a).length ≤ 4 := fun ha =>
    (Nat.length_toDigits_le_iff (by decide) (by decide)).mpr ha
  have hsix : ∀ {a}, a < 1000000 → (Nat.toDigits 10 a).length ≤ 6 := fun ha =>
    (Nat.length_toDigits_le_iff (by decide) (by decide)).mpr ha
  unfold isoformat at h
  obtain ⟨hyear, h⟩ := pad_append (hfour m.year_lt) (hfour n.year_lt) h
  obtain ⟨hmonth, h⟩ := pad_append (two_digits m.month_lt) (two_digits n.month_lt)
    (List.cons.inj h).2
  obtain ⟨hday, h⟩ := pad_append (two_digits m.day_lt) (two_digits n.day_lt) (List.cons.inj h).2
  obtain ⟨hhour, h⟩ := pad_append (two_digits m.hour_lt) (two_digits n.hour_lt)
    (List.cons.inj h).2
  obtain ⟨hminute, h⟩ := pad_append (two_digits m.minute_lt) (two_digits n.minute_lt)
    (List.cons.inj h).2
  obtain ⟨hsecond, h⟩ := pad_append (two_digits m.second_lt) (two_digits n.second_lt)
    (List.cons.inj h).2
  have hmicro : m.microsecond = n.microsecond := by
    have hcut := List.append_cancel_right h
    split_ifs at hcut with hm hn hn
    · rw [hm, hn]
    · have hpad := (List.cons.inj hcut).2
      exact pad_injective 6 hpad
  cases m
  cases n
  simp only at hyear hmonth hday hhour hminute hsecond hmicro
  subst hyear hmonth hday hhour hminute hsecond hmicro
  rfl

/-- The characters of a timestamp. -/
theorem isoformat_chars (m : Moment) : ∀ c ∈ isoformat m, c ≠ '{' ∧ c.toNat < 128 := by
  have hpad : ∀ w k, ∀ c ∈ pad w k, c ≠ '{' ∧ c.toNat < 128 := by
    intro w k c hc
    have hdigit := isDigit_pad w k c hc
    have hle : 48 ≤ c.toNat ∧ c.toNat ≤ 57 := by
      simpa [Char.isDigit, UInt32.le_iff_toNat_le] using hdigit
    refine ⟨?_, by omega⟩
    rintro rfl
    exact absurd hle (by decide)
  intro c hc
  unfold isoformat at hc
  have hsep : ∀ d : Char, c = d → d ≠ '{' ∧ d.toNat < 128 → c ≠ '{' ∧ c.toNat < 128 := by
    rintro d rfl hd
    exact hd
  simp only [List.mem_append, List.mem_cons] at hc
  rcases hc with hc | hc | hc | hc | hc | hc | hc | hc | hc | hc | hc | hc | hc
  · exact hpad _ _ c hc
  · exact hsep _ hc (by decide)
  · exact hpad _ _ c hc
  · exact hsep _ hc (by decide)
  · exact hpad _ _ c hc
  · exact hsep _ hc (by decide)
  · exact hpad _ _ c hc
  · exact hsep _ hc (by decide)
  · exact hpad _ _ c hc
  · exact hsep _ hc (by decide)
  · exact hpad _ _ c hc
  · split_ifs at hc
    · cases hc
    · rcases List.mem_cons.mp hc with hc | hc
      · exact hsep _ hc (by decide)
      · exact hpad _ _ c hc
  · have hzone : "+00:00".toList.all (fun d => decide (d ≠ '{' ∧ d.toNat < 128)) = true := by decide
    exact of_decide_eq_true (List.all_eq_true.mp hzone c hc)

end moments

section signatures

variable {ids : Ids} {p q : Payload} {m n : Moment}

/-- A body starts with a brace, and no timestamp has one. -/
theorem body_eq_cons (ids : Ids) (p : Payload) : ∃ rest, body ids p = 123 :: rest := by
  have hbrace : ∀ fields s, (Value.obj fields).print = '{' :: s →
      encode (Value.obj fields).print = 123 :: encode s := by
    intro fields s h
    rw [h, encode_ascii (by decide)]
    rfl
  have hobj : ∃ fields, payloadJson ids p = .obj fields := by
    cases p <;> exact ⟨_, rfl⟩
  obtain ⟨fields, hfields⟩ := hobj
  rw [body, hfields, dumps, Value.sortKeys]
  cases (sortFields fields).insertionSort fieldLe with
  | nil => exact ⟨_, hbrace [] _ rfl⟩
  | cons field rest => exact ⟨_, hbrace (field :: rest) _ rfl⟩

theorem brace_not_mem (m : Moment) : (123 : UInt8) ∉ encode (isoformat m) := by
  have hall := isoformat_chars m
  generalize isoformat m = s at hall
  induction s with
  | nil => exact List.not_mem_nil
  | cons c s ih =>
    obtain ⟨⟨hne, hlt⟩, hrest⟩ := List.forall_mem_cons.mp hall
    rw [encode_ascii hlt, List.mem_cons, not_or]
    refine ⟨fun heq => hne (Char.toNat_inj.mp ?_), ih hrest⟩
    have hnat := congrArg UInt8.toNat heq
    rw [Nat.toUInt8, UInt8.toNat_ofNat', Nat.mod_eq_of_lt (by omega)] at hnat
    exact hnat.symm

variable (ids) in
/-- What is signed tells the timestamp and the body apart, so that it tells both. -/
theorem message_eq_iff : message (body ids p) (isoformat m) = message (body ids q) (isoformat n) ↔
    m = n ∧ withoutCreated p = withoutCreated q := by
  constructor
  · intro h
    obtain ⟨s, hs⟩ := body_eq_cons ids p
    obtain ⟨t, ht⟩ := body_eq_cons ids q
    have hfront : ∀ (k : Moment) (rest : Bytes), (message (123 :: rest) (isoformat k)).takeWhile
        (· ≠ 123) = encode (isoformat k) ++ [46] := by
      intro k rest
      have hk : ∀ b ∈ encode (isoformat k), decide (b ≠ 123) = true := by
        intro b hb
        simpa using ne_of_mem_of_not_mem hb (brace_not_mem k)
      rw [message, List.takeWhile_append_of_pos hk]
      rfl
    have htime : isoformat m = isoformat n := by
      have hcut := congrArg (List.takeWhile (· ≠ 123)) h
      rw [hs, ht, hfront m s, hfront n t] at hcut
      exact encode_injective (List.append_cancel_right hcut)
    rw [htime] at h
    have hbody := (List.cons.inj (List.append_cancel_left h)).2
    exact ⟨isoformat_injective htime, body_eq_iff.mp hbody⟩
  · rintro ⟨rfl, hp⟩
    rw [body_eq_iff.mpr hp]

theorem sign_eq_iff {hmac : Bytes → Bytes → Bytes} {secret s t : Text} {a b : Bytes} :
    sign hmac secret a s = sign hmac secret b t ↔
      hmac (encode secret) (message a s) = hmac (encode secret) (message b t) :=
  (List.append_right_inj _).trans hexdigest_injective.eq_iff

theorem collides_iff (digest : Bytes → Bytes) (a b : Bytes) :
    digest a = digest b ↔ a = b ∨ (a ≠ b ∧ digest a = digest b) := by
  by_cases h : a = b <;> simp [h]

/-- The signature of a request is that of another one only if both say the same at the same moment,
or if two messages have one digest. The body gives the payload back, as a dict with the same keys and
values: `dumps` sorts the keys, so that two payloads that differ in their order only are one here. -/
theorem signature_binds (ids : Ids) (hmac : Bytes → Bytes → Bytes) (secret : Text)
    (p q : Payload) (m n : Moment) :
    (sign hmac secret (body ids p) (isoformat m) = sign hmac secret (body ids q) (isoformat n) ↔
      (m = n ∧ withoutCreated p = withoutCreated q) ∨
      (message (body ids p) (isoformat m) ≠ message (body ids q) (isoformat n) ∧
        hmac (encode secret) (message (body ids p) (isoformat m)) =
          hmac (encode secret) (message (body ids q) (isoformat n)))) ∧
    ∃ v, (decode (body ids p)).bind loads = some v ∧ (payloadJson ids p).Same v := by
  have hd := distinct_payloadJson ids p
  have hread : (decode (body ids p)).bind loads = some (payloadJson ids p).sortKeys := by
    rw [body, loads_decode_dumps hd]
  refine ⟨?_, (payloadJson ids p).sortKeys, hread, same_sortKeys hd⟩
  rw [sign_eq_iff, ← message_eq_iff ids]
  exact collides_iff (hmac (encode secret)) _ _

end signatures

end Fakery.Webhooks

import Fakery.Labels.Rfc1123
import Fakery.Meetings.Canonical
import Mathlib.Data.List.Range

/-! The names of jobs: each is a label, whatever the id of the bot, and the ids that `create_or_get`
mints have names that differ. -/
namespace Fakery.Jobs
open Fakery.Labels Fakery.Meetings

def JOB_NAME_PREFIX : Text := "botrun".toList

def JOB_MAX_NAME : ℕ := 63

section names

/-- Of all characters only the capital I with a dot becomes two. -/
def lowerChars (c : Char) : Text := if c = '\u0130' then ['i', '\u0307'] else [lowerChar c]

/-- `str.lower`, as far as the regular expression below tells its results apart: a character outside
ASCII that becomes another one outside ASCII stays as it is. -/
def lower (s : Text) : Text := s.flatMap lowerChars

/-- `re.sub(r"[^a-z0-9-]", "-", s)` -/
def dashed (s : Text) : Text := s.map fun c => if labelChar c then c else '-'

def strip (c : Char) (s : Text) : Text := rstrip c (s.dropWhile (· = c))

def botJobName (botId : Text) : Text :=
  let slug := strip '-' (dashed (lower botId))
  rstrip '-' ((JOB_NAME_PREFIX ++ '-' :: slug).take JOB_MAX_NAME)

end names

section ids

def hexDigit (c : Char) : Bool := ('0' ≤ c && c ≤ '9') || ('a' ≤ c && c ≤ 'f')

/-- An id of the form that `create_or_get` mints. -/
structure BotId where
  hex : Text
  size : hex.length = 32
  digits : ∀ c ∈ hex, hexDigit c = true
deriving DecidableEq

def BotId.text (id : BotId) : Text := "bot_".toList ++ id.hex

/-- `f"{n:032x}"` -/
def hex32 (n : ℕ) : Text :=
  (List.range 32).reverse.map fun i => Nat.digitChar ((n >>> (4 * i)) % 16)

theorem length_hex32 (n : ℕ) : (hex32 n).length = 32 := by
  rw [hex32, List.length_map, List.length_reverse, List.length_range]

theorem hexDigit_digitChar : ∀ d < 16, hexDigit (Nat.digitChar d) = true := by
  decide

theorem hexDigit_of_hex32 (n : ℕ) : ∀ c ∈ hex32 n, hexDigit c = true := by
  intro c hc
  obtain ⟨i, -, rfl⟩ := List.mem_map.mp hc
  exact hexDigit_digitChar _ (Nat.mod_lt _ (by decide))

/-- `f"bot_{uuid.uuid4().hex}"` -/
def mint (uuid4 : BitVec 128) : BotId where
  hex := hex32 uuid4.toNat
  size := length_hex32 uuid4.toNat
  digits := hexDigit_of_hex32 uuid4.toNat

end ids

section valid

variable {s : Text}

theorem labelChar_of_dashed : ∀ c ∈ dashed s, labelChar c = true := by
  intro c hc
  obtain ⟨d, -, rfl⟩ := List.mem_map.mp hc
  split_ifs with hd
  · exact hd
  · rfl

theorem labelChar_of_strip (h : ∀ c ∈ s, labelChar c = true) :
    ∀ c ∈ strip '-' s, labelChar c = true := by
  intro c hc
  have hdropped := (List.rdropWhile_prefix _ _).subset hc
  exact h c ((List.dropWhile_suffix _).subset hdropped)

theorem isLabel_prefix : IsLabel JOB_NAME_PREFIX := by
  decide

/-- Nothing is asked of `str.lower`. -/
theorem isLabel_botJobName (botId : Text) : IsLabel (botJobName botId) := by
  apply isLabel_prefix.clipped
  · intro c hc
    rcases List.mem_cons.mp hc with rfl | hc
    · rfl
    · exact labelChar_of_strip labelChar_of_dashed c hc
  · decide
  · decide

example : botJobName "bot_A83F9C".toList = "botrun-bot-a83f9c".toList := by decide

end valid

section apart

variable {s : Text} {botId other : Text}

theorem strip_of_label (h : IsLabel s) : strip '-' s = s := by
  have hfront : s.dropWhile (· = '-') = s := by
    have hhead := h.head
    cases s with
    | nil => rfl
    | cons c s =>
      rw [List.head?_cons, Option.any_some] at hhead
      rw [List.dropWhile_cons_of_neg]
      exact fun hc => ne_hyphen_of_edgeChar hhead (of_decide_eq_true hc)
  rw [strip, hfront]
  exact rdropWhile_of_last h.last_ne_hyphen

/-- A slug that leaves room for the prefix is kept whole. -/
theorem botJobName_eq (hslug : dashed (lower botId) = s) (h : IsLabel s) (hs : s.length ≤ 56) :
    botJobName botId = JOB_NAME_PREFIX ++ '-' :: s := by
  have hshort : (JOB_NAME_PREFIX ++ '-' :: s).length ≤ JOB_MAX_NAME := by
    have hlength : JOB_NAME_PREFIX.length = 6 := rfl
    have hmax : JOB_MAX_NAME = 63 := rfl
    rw [List.length_append, List.length_cons]
    omega
  have hlast : (JOB_NAME_PREFIX ++ '-' :: s).getLast?.any (· = '-') = false := by
    have hne : s ≠ [] := List.ne_nil_of_length_pos h.pos
    have hsame : (JOB_NAME_PREFIX ++ '-' :: s).getLast? = s.getLast? := by
      rw [List.getLast?_append, List.getLast?_cons, List.getLast?_eq_some_getLast hne]
      rfl
    rw [hsame]
    exact h.last_ne_hyphen
  unfold botJobName
  simp only [hslug, strip_of_label h]
  rw [List.take_of_length_le hshort]
  exact rdropWhile_of_last hlast

/-- Without a capital I with a dot, it is `str.lower` as it is taken of meeting URLs. -/
theorem lower_eq_lower (h : ∀ c ∈ s, c ≠ '\u0130') : lower s = Meetings.lower s := by
  induction s with
  | nil => rfl
  | cons c s ih =>
    have hrest := ih fun d hd => h d (List.mem_cons_of_mem c hd)
    rw [lower, List.flatMap_cons, lowerChars, if_neg (h c List.mem_cons_self)]
    exact congrArg (lowerChar c :: ·) hrest

/-- Ids with slugs that are labels and leave room for the prefix have names of their own, up to
what the slug forgets. -/
theorem botJobName_inj (ha : IsLabel (dashed (lower botId))) (hb : IsLabel (dashed (lower other)))
    (hs : (dashed (lower botId)).length ≤ 56) (ht : (dashed (lower other)).length ≤ 56) :
    botJobName botId = botJobName other ↔ dashed (lower botId) = dashed (lower other) := by
  rw [botJobName_eq rfl ha hs, botJobName_eq rfl hb ht, List.append_right_inj, List.cons_inj_right]

theorem dashed_lower_append (s t : Text) :
    dashed (lower (s ++ t)) = dashed (lower s) ++ dashed (lower t) := by
  rw [lower, List.flatMap_append, dashed, List.map_append]
  rfl

theorem dashed_lower_of_labelChar (h : ∀ c ∈ s, labelChar c = true) : dashed (lower s) = s := by
  have hplain : ∀ c ∈ s, c ≠ '\u0130' := by
    rintro c hc rfl
    have hlabel := h _ hc
    revert hlabel
    decide
  have hmap : dashed s = s.map id := List.map_congr_left fun c hc => if_pos (h c hc)
  rw [lower_eq_lower hplain, lower_of_pattern h, hmap, List.map_id]

theorem edgeChar_of_hexDigit {c : Char} (h : hexDigit c = true) : edgeChar c = true := by
  have hz : ('f' : Char) ≤ 'z' := by decide
  simp only [hexDigit, edgeChar, Bool.or_eq_true, Bool.and_eq_true, decide_eq_true_eq] at h ⊢
  rcases h with ⟨hlow, hhigh⟩ | ⟨hlow, hhigh⟩
  · exact Or.inr ⟨hlow, hhigh⟩
  · exact Or.inl ⟨hlow, Char.le_trans hhigh hz⟩

namespace BotId

variable (id : BotId)

def slug : Text := "bot-".toList ++ id.hex

theorem edgeChar_of_hex : ∀ c ∈ id.hex, edgeChar c = true :=
  fun c hc => edgeChar_of_hexDigit (id.digits c hc)

theorem dashed_text : dashed (lower id.text) = id.slug := by
  have hhex : dashed (lower id.hex) = id.hex :=
    dashed_lower_of_labelChar fun c hc => labelChar_of_edgeChar (id.edgeChar_of_hex c hc)
  rw [text, dashed_lower_append, hhex]
  rfl

theorem length_slug : id.slug.length = 36 := by
  rw [slug, List.length_append, id.size]
  rfl

theorem isLabel_slug : IsLabel id.slug := by
  have hne : id.hex ≠ [] := by
    intro hnil
    have hsize := id.size
    rw [hnil] at hsize
    cases hsize
  have hfront : ∀ c ∈ "bot-".toList, labelChar c = true := List.all_eq_true.mp (by decide)
  constructor
  · rw [length_slug]
    decide
  · rw [length_slug]
    decide
  · intro c hc
    rcases List.mem_append.mp hc with hc | hc
    · exact hfront c hc
    · exact labelChar_of_edgeChar (id.edgeChar_of_hex c hc)
  · rfl
  · rw [slug, List.getLast?_append, List.getLast?_eq_some_getLast hne, Option.some_or,
      Option.any_some]
    exact id.edgeChar_of_hex _ (List.getLast_mem hne)

theorem slug_inj {id id' : BotId} : id.slug = id'.slug ↔ id = id' := by
  constructor
  · intro h
    cases id
    cases id'
    cases List.append_cancel_left h
    rfl
  · rintro rfl
    rfl

end BotId

/-- Two bots have two names. -/
theorem botJobName_text_inj {id id' : BotId} :
    botJobName id.text = botJobName id'.text ↔ id = id' := by
  have hroom : ∀ id : BotId, (dashed (lower id.text)).length ≤ 56 := by
    intro id
    rw [id.dashed_text, id.length_slug]
    decide
  have hlabel : ∀ id : BotId, IsLabel (dashed (lower id.text)) := by
    intro id
    rw [id.dashed_text]
    exact id.isLabel_slug
  rw [botJobName_inj (hlabel id) (hlabel id') (hroom id) (hroom id'), id.dashed_text,
    id'.dashed_text, BotId.slug_inj]

end apart

end Fakery.Jobs

import Fakery.Meetings.Urls
import Mathlib.Data.List.Basic

/-! The key of a meeting is a canonical form of its URL: it has the code in lower case and nothing
else of how the URL is written. -/
namespace Fakery.Meetings
open Fakery.Core

section characters

variable {c : Char} {s : Text}

theorem codeChar_iff : codeChar c = true ↔
    (97 ≤ c.toNat ∧ c.toNat ≤ 122) ∨ (48 ≤ c.toNat ∧ c.toNat ≤ 57) := by
  simp only [codeChar, Bool.or_eq_true, Bool.and_eq_true, decide_eq_true_eq, Char.le_def,
    UInt32.le_iff_toNat_le]
  rfl

theorem lowerChar_cases (c : Char) :
    (c = '\u212a' ∧ lowerChar c = 'k') ∨ (65 ≤ c.toNat ∧ c.toNat ≤ 90) ∨ lowerChar c = c := by
  unfold lowerChar
  split_ifs with hk
  · exact Or.inl ⟨hk, rfl⟩
  · right
    unfold Char.toLower
    split_ifs with hu
    · left
      simp only [ge_iff_le, UInt32.le_iff_toNat_le] at hu
      exact hu
    · exact Or.inr rfl

/-- The characters of a code. -/
def patternChar (c : Char) : Bool := codeChar c || c = '-'

theorem lowerChar_of_patternChar (h : patternChar c = true) : lowerChar c = c := by
  rcases lowerChar_cases c with ⟨rfl, -⟩ | hupper | hsame
  · revert h
    decide
  · simp only [patternChar, Bool.or_eq_true, codeChar_iff, decide_eq_true_eq] at h
    rcases h with h | rfl
    · omega
    · revert hupper
      decide
  · exact hsame

theorem lower_of_pattern (h : ∀ c ∈ s, patternChar c = true) : lower s = s := by
  have hmap : s.map lowerChar = s.map id :=
    List.map_congr_left fun c hc => lowerChar_of_patternChar (h c hc)
  exact hmap.trans (List.map_id s)

theorem lower_append (s t : Text) : lower (s ++ t) = lower s ++ lower t := List.map_append

end characters

section codes

variable {code : Text}

/-- The pattern as a language. -/
theorem isCode_iff : isCode code = true ↔ ∃ a b c : Text, code = a ++ '-' :: b ++ '-' :: c ∧
    a.length = 3 ∧ 4 ≤ b.length ∧ c.length = 3 ∧ ∀ x ∈ a ++ b ++ c, codeChar x = true := by
  unfold isCode
  constructor
  · intro h
    split at h
    · rename_i a b c hsplit
      simp only [Bool.and_eq_true, decide_eq_true_eq, List.all_eq_true] at h
      obtain ⟨⟨⟨ha, hb⟩, hc⟩, hall⟩ := h
      refine ⟨a, b, c, ?_, ha, hb, hc, hall⟩
      have hjoin : ['-'].intercalate (code.splitOn '-') = code := List.intercalate_splitOn '-'
      rw [hsplit] at hjoin
      simpa [List.intercalate_cons_cons] using hjoin.symm
    · cases h
  · rintro ⟨a, b, c, rfl, ha, hb, hc, hall⟩
    have hhyphen : ∀ part : Text, (∀ x ∈ part, codeChar x = true) → '-' ∉ part := by
      intro part hpart hmem
      have hcode := hpart '-' hmem
      revert hcode
      decide
    have hna := hhyphen a fun x hx => hall x (by simp [hx])
    have hnb := hhyphen b fun x hx => hall x (by simp [hx])
    have hnc := hhyphen c fun x hx => hall x (by simp [hx])
    have hsplit : (a ++ '-' :: b ++ '-' :: c).splitOn '-' = [a, b, c] := by
      rw [List.append_assoc, List.cons_append, List.splitOn_append_cons_self,
        List.splitOn_append_cons_self, List.splitOn_eq_singleton hna, List.splitOn_eq_singleton hnb,
        List.splitOn_eq_singleton hnc]
      rfl
    rw [hsplit]
    simp only [ha, hc, hb, decide_true, Bool.true_and]
    exact List.all_eq_true.mpr hall

theorem patternChar_of_isCode (h : isCode code = true) : ∀ c ∈ code, patternChar c = true := by
  obtain ⟨a, b, c, rfl, -, -, -, hall⟩ := isCode_iff.mp h
  intro x hx
  unfold patternChar
  by_cases hhyphen : x = '-'
  · simp [hhyphen]
  · have hmem : x ∈ a ++ b ++ c := by simpa [hhyphen] using hx
    simp [hall x hmem]

theorem lower_of_isCode (h : isCode code = true) : lower code = code :=
  lower_of_pattern (patternChar_of_isCode h)

theorem ne_nil_of_isCode (h : isCode code = true) : code ≠ [] := by
  obtain ⟨a, b, c, rfl, -⟩ := isCode_iff.mp h
  simp

def someCode : Text := "abc-defg-hij".toList

theorem isCode_someCode : isCode someCode = true := by decide

end codes

section paths

variable {s t : Text} {c : Char} {n : ℕ}

theorem segments_append (s t : Text) : segments (s ++ '/' :: t) = segments s ++ segments t := by
  unfold segments
  rw [List.splitOn_append_cons_self, List.filter_append]

@[simp] theorem segments_nil : segments [] = [] := rfl

@[simp] theorem segments_cons (t : Text) : segments ('/' :: t) = segments t :=
  segments_append [] t

@[simp] theorem segments_slashes (n : ℕ) (t : Text) :
    segments (List.replicate n '/' ++ t) = segments t := by
  induction n with
  | zero => rfl
  | succ n ih => rw [List.replicate_succ, List.cons_append, segments_cons, ih]

theorem segments_append_slashes (s : Text) (n : ℕ) :
    segments (s ++ List.replicate n '/') = segments s := by
  cases n with
  | zero => simp
  | succ n =>
    have hnone := segments_slashes n []
    rw [List.append_nil] at hnone
    rw [List.replicate_succ, segments_append, hnone, segments_nil, List.append_nil]

theorem segments_of_not_mem (h : '/' ∉ s) (hne : s ≠ []) : segments s = [s] := by
  unfold segments
  rw [List.splitOn_eq_singleton h]
  simp [hne]

theorem rstrip_append (c : Char) (s : Text) : ∃ n, s = rstrip c s ++ List.replicate n c := by
  induction s using List.reverseRecOn with
  | nil => exact ⟨0, rfl⟩
  | append_singleton s x ih =>
    obtain ⟨n, hn⟩ := ih
    unfold rstrip at hn ⊢
    rw [List.rdropWhile_concat]
    split_ifs with hx
    · refine ⟨n + 1, ?_⟩
      rw [List.replicate_succ', ← List.append_assoc, ← hn, of_decide_eq_true hx]
    · exact ⟨0, by simp⟩

/-- Slashes at the end do not change the segments. -/
theorem segments_rstrip (s : Text) : segments (rstrip '/' s) = segments s := by
  obtain ⟨n, hn⟩ := rstrip_append '/' s
  conv_rhs => rw [hn, segments_append_slashes]

theorem rstrip_append_replicate (h : s.getLast? ≠ some c) :
    rstrip c (s ++ List.replicate n c) = s := by
  unfold rstrip
  induction n with
  | zero =>
    rw [List.replicate_zero, List.append_nil, List.rdropWhile_eq_self_iff]
    intro hne hlast
    apply h
    rw [List.getLast?_eq_some_getLast hne, of_decide_eq_true hlast]
  | succ n ih =>
    rw [List.replicate_succ', ← List.append_assoc, List.rdropWhile_concat_pos _ _ _ (by simp)]
    exact ih

end paths

section cuts

variable {s t : Text} {c : Char} {p : Char → Bool}

theorem before_append (h : c ∉ s) (t : Text) : before c (s ++ t) = s ++ before c t := by
  apply List.takeWhile_append_of_pos
  intro a ha
  exact decide_eq_true fun heq => h (heq ▸ ha)

@[simp] theorem before_cons (c : Char) (t : Text) : before c (c :: t) = [] := by
  simp [before]

theorem before_of_not_mem (h : c ∉ s) : before c s = s := by
  have happend := before_append h []
  simpa [before] using happend

theorem after_append (h : c ∉ s) (t : Text) : after c (s ++ c :: t) = t := by
  have hall : ∀ a ∈ s, decide (a ≠ c) = true :=
    fun a ha => decide_eq_true fun heq => h (heq ▸ ha)
  unfold after
  rw [List.dropWhile_append_of_pos hall]
  simp

theorem dropWhile_of_not_mem (h : c ∉ s) : s.dropWhile (· ≠ c) = [] := by
  apply List.dropWhile_eq_nil_iff.mpr
  intro a ha
  exact decide_eq_true fun heq => h (heq ▸ ha)

theorem rtakeWhile_append (h : ∀ a ∈ s, p a = true)
    (ht : t = [] ∨ ∃ u c, t = u ++ [c] ∧ p c = false) : (t ++ s).rtakeWhile p = s := by
  induction s using List.reverseRecOn with
  | nil =>
    rw [List.append_nil]
    rcases ht with rfl | ⟨u, c, rfl, hc⟩
    · rfl
    · rw [List.rtakeWhile_concat_neg _ _ _ (by simp [hc])]
  | append_singleton s x ih =>
    have hx : p x = true := h x (by simp)
    rw [← List.append_assoc, List.rtakeWhile_concat_pos _ _ _ hx,
      ih fun a ha => h a (List.mem_append_left _ ha)]

end cuts

section acceptance

variable {admits : Text → Bool} {u v : Text} {r : Text × Text}

theorem lower_https : lower https = https := by decide

theorem lower_meetHost : lower meetHost = meetHost := by decide

/-- What is made of a code. -/
def canonical (code : Text) : Text × Text :=
  (urlunsplit https meetHost ('/' :: code), meetHost ++ '/' :: code)

/-- The parts of a URL that stand for a meeting. -/
structure Names (parsed : SplitResult) (segment : Text) : Prop where
  scheme : lower parsed.scheme = https
  host : rstrip '.' (lower parsed.hostname) = meetHost
  path : segments parsed.path = [segment]
  code : isCode (lower segment) = true

theorem normalize_eq_ok : normalizeMeetingUrl admits u = .ok r ↔
    ∃ parsed segment, urlsplit admits u = some parsed ∧ Names parsed segment ∧
      r = canonical (lower segment) := by
  unfold normalizeMeetingUrl
  cases hsplit : urlsplit admits u with
  | none => simp
  | some parsed =>
    simp only [segments_rstrip]
    constructor
    · intro h
      split at h
      · rename_i segment hpath
        split_ifs at h with hbad hcode
        obtain ⟨hscheme, hhost⟩ := not_or.mp hbad
        exact ⟨parsed, segment, rfl, ⟨not_not.mp hscheme, not_not.mp hhost, hpath, hcode⟩,
          (Except.ok.inj h).symm⟩
      · cases h
    · rintro ⟨_, segment, hparsed, hnames, rfl⟩
      obtain rfl := Option.some.inj hparsed
      have hgood : ¬(lower parsed.scheme ≠ https ∨ rstrip '.' (lower parsed.hostname) ≠ meetHost) :=
        fun hbad => hbad.elim (fun h => h hnames.scheme) fun h => h hnames.host
      rw [hnames.path]
      dsimp only
      rw [if_neg hgood, if_pos hnames.code]
      rfl

theorem canonical_snd_eq (code other : Text) :
    (canonical code).2 = (canonical other).2 ↔ code = other := by
  simp [canonical]

theorem canonical_fst_eq (code other : Text) :
    (canonical code).1 = (canonical other).1 ↔ code = other := by
  simp [canonical, urlunsplit]

end acceptance

section spelling

/-- A way to write the URL of a meeting. -/
structure Spelling where
  scheme : Text
  user : Text
  host : Text
  dots : ℕ
  port : Text
  slashes : ℕ
  segment : Text
  trailing : ℕ
  rest : Text

namespace Spelling

def netloc (w : Spelling) : Text := w.user ++ (w.host ++ List.replicate w.dots '.' ++ w.port)

def path (w : Spelling) : Text :=
  List.replicate (w.slashes + 1) '/' ++ w.segment ++ List.replicate w.trailing '/'

def text (w : Spelling) : Text :=
  w.scheme ++ ':' :: '/' :: '/' :: (w.netloc ++ (w.path ++ w.rest))

end Spelling

/-- The characters of user info and port that need no care. -/
def freeChar (c : Char) : Bool :=
  !delimiter c && !unsafeChar c && c ≠ '[' && c ≠ ']' && c.val < 128

/-- Scheme, host and segment in any case, dots, slashes and the rest as one likes. -/
structure Spelling.Valid (w : Spelling) : Prop where
  scheme : lower w.scheme = https
  user : w.user = [] ∨ ∃ info, w.user = info ++ ['@'] ∧ ∀ c ∈ info, freeChar c = true
  host : lower w.host = meetHost
  port : w.port = [] ∨ ∃ digits, w.port = ':' :: digits ∧
    ∀ c ∈ digits, freeChar c = true ∧ c ≠ '@'
  segment : isCode (lower w.segment) = true
  rest : w.rest = [] ∨ ∃ more, w.rest = '?' :: more ∨ w.rest = '#' :: more

/-- The characters of a scheme or a host in any case. -/
theorem char_of_lower {c x : Char} (h : lowerChar c = x) (hx : x ≠ 'k') :
    (65 ≤ c.toNat ∧ c.toNat ≤ 90) ∨ c = x := by
  rcases lowerChar_cases c with ⟨-, hk⟩ | hupper | hsame
  · exact absurd (h.symm.trans hk) hx
  · exact Or.inl hupper
  · exact Or.inr (hsame.symm.trans h)

theorem ne_of_upper {c x : Char} (h : 65 ≤ c.toNat ∧ c.toNat ≤ 90)
    (hx : x.toNat < 65 ∨ 90 < x.toNat) : c ≠ x := by
  rintro rfl
  omega

theorem isUpper_iff {c : Char} : c.isUpper = true ↔ 65 ≤ c.toNat ∧ c.toNat ≤ 90 :=
  decide_eq_true_iff

theorem isLower_iff {c : Char} : c.isLower = true ↔ 97 ≤ c.toNat ∧ c.toNat ≤ 122 :=
  Bool.and_eq_true_iff.trans (and_congr decide_eq_true_iff decide_eq_true_iff)

theorem isAlpha_iff {c : Char} : c.isAlpha = true ↔ c.isUpper = true ∨ c.isLower = true :=
  Bool.or_eq_true_iff

theorem isAlpha_of_upper {c : Char} (h : 65 ≤ c.toNat ∧ c.toNat ≤ 90) : c.isAlpha = true :=
  isAlpha_iff.mpr (Or.inl (isUpper_iff.mpr h))

/-- The characters of a host, which none of the cuts of an authority stops at. -/
def hostChar (c : Char) : Bool := freeChar c && c ≠ '@' && c ≠ ':' && c ≠ '%'

theorem hostChar_of_upper {c : Char} (h : 65 ≤ c.toNat ∧ c.toNat ≤ 90) : hostChar c = true := by
  have hne : ∀ x : Char, (x.toNat < 65 ∨ 90 < x.toNat) → c ≠ x := fun x hx => ne_of_upper h hx
  have hascii : c.val < 128 := by
    have hle : c.val.toNat ≤ 90 := h.2
    rw [UInt32.lt_iff_toNat_lt]
    exact Nat.lt_of_le_of_lt hle (by decide)
  simp only [hostChar, freeChar, delimiter, unsafeChar, Bool.and_eq_true, Bool.not_eq_true',
    Bool.or_eq_false_iff, decide_eq_true_eq, decide_eq_false_iff_not]
  refine ⟨⟨⟨⟨⟨⟨⟨⟨⟨?_, ?_⟩, ?_⟩, ⟨?_, ?_⟩, ?_⟩, ?_⟩, ?_⟩, hascii⟩, ?_⟩, ?_⟩, ?_⟩ <;>
    exact hne _ (by decide)

theorem freeChar_of_hostChar {c : Char} (h : hostChar c = true) : freeChar c = true := by
  simp only [hostChar, Bool.and_eq_true] at h
  exact h.1.1.1

theorem not_mem_of_hostChar {s : Text} {x : Char} (h : ∀ c ∈ s, hostChar c = true)
    (hx : hostChar x = false) : x ∉ s := by
  intro hmem
  rw [h x hmem] at hx
  cases hx

theorem not_le_space {c : Char} (h : c.isAlpha = true) : ¬c ≤ ' ' := by
  have hlarge : 65 ≤ c.toNat := by
    rcases isAlpha_iff.mp h with hupper | hlower
    · exact (isUpper_iff.mp hupper).1
    · have hbound := (isLower_iff.mp hlower).1
      omega
  intro hle
  rw [Char.le_def, UInt32.le_iff_toNat_le] at hle
  have hsmall : c.toNat ≤ 32 := hle
  omega

/-- A character of a segment that may be a code is none of those that a path is cut at. -/
theorem ne_of_pattern {c x : Char} (h : patternChar (lowerChar c) = true)
    (hx : patternChar (lowerChar x) = false) : c ≠ x := by
  rintro rfl
  rw [h] at hx
  cases hx

namespace Spelling

variable {w : Spelling}

theorem Valid.scheme_chars (h : w.Valid) :
    ∀ c ∈ w.scheme, c.isAlpha = true ∧ hostChar c = true := by
  intro c hc
  have hmem : lowerChar c ∈ https := h.scheme ▸ List.mem_map_of_mem hc
  have hall : (https.all fun x => x ≠ 'k' && (x.isAlpha && hostChar x)) = true := by decide
  have hchar := List.all_eq_true.mp hall _ hmem
  simp only [Bool.and_eq_true, decide_eq_true_eq] at hchar
  obtain ⟨hk, halpha, hhost⟩ := hchar
  rcases char_of_lower rfl hk with hupper | hsame
  · exact ⟨isAlpha_of_upper hupper, hostChar_of_upper hupper⟩
  · rw [hsame]
    exact ⟨halpha, hhost⟩

theorem Valid.host_chars (h : w.Valid) : ∀ c ∈ w.host, hostChar c = true := by
  intro c hc
  have hmem : lowerChar c ∈ meetHost := h.host ▸ List.mem_map_of_mem hc
  have hall : (meetHost.all fun x => x ≠ 'k' && hostChar x) = true := by decide
  have hchar := List.all_eq_true.mp hall _ hmem
  simp only [Bool.and_eq_true, decide_eq_true_eq] at hchar
  obtain ⟨hk, hhost⟩ := hchar
  rcases char_of_lower rfl hk with hupper | hsame
  · exact hostChar_of_upper hupper
  · rw [hsame]
    exact hhost

theorem Valid.dotted_chars (h : w.Valid) :
    ∀ c ∈ w.host ++ List.replicate w.dots '.', hostChar c = true := by
  intro c hc
  rcases List.mem_append.mp hc with hc | hc
  · exact h.host_chars c hc
  · rw [(List.mem_replicate.mp hc).2]
    decide

theorem Valid.netloc_chars (h : w.Valid) : ∀ c ∈ w.netloc, freeChar c = true := by
  intro c hc
  rcases List.mem_append.mp hc with hc | hc
  · rcases h.user with hnil | ⟨info, hinfo, hfree⟩
    · rw [hnil] at hc
      cases hc
    · rw [hinfo] at hc
      rcases List.mem_append.mp hc with hc | hc
      · exact hfree c hc
      · rw [List.mem_singleton.mp hc]
        decide
  · rcases List.mem_append.mp hc with hc | hc
    · exact freeChar_of_hostChar (h.dotted_chars c hc)
    · rcases h.port with hnil | ⟨digits, hdigits, hfree⟩
      · rw [hnil] at hc
        cases hc
      · rw [hdigits] at hc
        rcases List.mem_cons.mp hc with rfl | hc
        · decide
        · exact (hfree c hc).1

theorem Valid.segment_chars (h : w.Valid) :
    ∀ c ∈ w.segment, patternChar (lowerChar c) = true := fun c hc =>
  patternChar_of_isCode h.segment (lowerChar c) (List.mem_map_of_mem hc)

/-- A character that is neither a slash nor may stand in a segment does not stand in the path. -/
theorem Valid.not_mem_path (h : w.Valid) {x : Char} (hx : patternChar (lowerChar x) = false)
    (hslash : x ≠ '/') : x ∉ w.path := by
  unfold path
  rw [List.mem_append, List.mem_append]
  rintro ((hmem | hmem) | hmem)
  · exact hslash (List.mem_replicate.mp hmem).2
  · exact ne_of_pattern (h.segment_chars x hmem) hx rfl
  · exact hslash (List.mem_replicate.mp hmem).2

/-- What is left of the rest when tabs and line breaks are removed. -/
def cleaned (w : Spelling) : Text := w.rest.filter (!unsafeChar ·)

theorem Valid.cleaned (h : w.Valid) :
    w.cleaned = [] ∨ ∃ more, w.cleaned = '?' :: more ∨ w.cleaned = '#' :: more := by
  unfold Spelling.cleaned
  rcases h.rest with hnil | ⟨more, hquery | hfragment⟩
  · exact Or.inl (by rw [hnil]; rfl)
  · exact Or.inr ⟨more.filter (!unsafeChar ·), Or.inl (by rw [hquery]; rfl)⟩
  · exact Or.inr ⟨more.filter (!unsafeChar ·), Or.inr (by rw [hfragment]; rfl)⟩

/-- Only the rest may have something to remove. -/
theorem Valid.clean (h : w.Valid) :
    (w.text.dropWhile (· ≤ ' ')).filter (!unsafeChar ·) =
      w.scheme ++ ':' :: '/' :: '/' :: (w.netloc ++ (w.path ++ w.cleaned)) := by
  have hkeep : ∀ s : Text, (∀ c ∈ s, freeChar c = true) → s.filter (!unsafeChar ·) = s := by
    intro s hs
    apply List.filter_eq_self.mpr
    intro c hc
    have hfree := hs c hc
    simp only [freeChar, Bool.and_eq_true] at hfree
    exact hfree.1.1.1.2
  have hscheme := hkeep w.scheme fun c hc => freeChar_of_hostChar (h.scheme_chars c hc).2
  have hpath : w.path.filter (!unsafeChar ·) = w.path := by
    apply List.filter_eq_self.mpr
    intro c hc
    cases hu : unsafeChar c with
    | false => rfl
    | true =>
      have hbad : patternChar (lowerChar c) = false ∧ c ≠ '/' := by
        simp only [unsafeChar, Bool.or_eq_true, decide_eq_true_eq] at hu
        rcases hu with (rfl | rfl) | rfl <;> decide
      exact absurd hc (h.not_mem_path hbad.1 hbad.2)
  have hlead : w.text.dropWhile (· ≤ ' ') = w.text := by
    cases hs : w.scheme with
    | nil =>
      have hnil := h.scheme
      rw [hs] at hnil
      cases hnil
    | cons c scheme =>
      have halpha := (h.scheme_chars c (by rw [hs]; exact List.mem_cons_self)).1
      simp only [text, hs, List.cons_append]
      rw [List.dropWhile_cons_of_neg]
      exact fun hle => not_le_space halpha (of_decide_eq_true hle)
  rw [hlead]
  simp only [text, List.filter_append, List.filter_cons, hscheme, hkeep w.netloc h.netloc_chars,
    hpath]
  rfl

theorem Valid.splitScheme (h : w.Valid) (t : Text) :
    splitScheme (w.scheme ++ ':' :: t) = (https, t) := by
  have hcolon : ':' ∉ w.scheme :=
    not_mem_of_hostChar (fun c hc => (h.scheme_chars c hc).2) (by decide)
  have hbefore : before ':' (w.scheme ++ ':' :: t) = w.scheme := by
    rw [before_append hcolon, before_cons, List.append_nil]
  unfold Meetings.splitScheme
  rw [hbefore, after_append hcolon, h.scheme]
  apply if_pos
  refine ⟨by simp, ?_, ?_⟩
  · cases hs : w.scheme with
    | nil =>
      have hnil := h.scheme
      rw [hs] at hnil
      cases hnil
    | cons c scheme =>
      exact (h.scheme_chars c (by rw [hs]; exact List.mem_cons_self)).1
  · apply List.all_eq_true.mpr
    intro c hc
    simp [schemeChar, Char.isAlphanum, (h.scheme_chars c hc).1]

theorem Valid.splitNetloc (h : w.Valid) :
    splitNetloc ('/' :: '/' :: (w.netloc ++ (w.path ++ w.cleaned))) =
      (w.netloc, w.path ++ w.cleaned) := by
  have hfree : ∀ c ∈ w.netloc, (!delimiter c) = true := by
    intro c hc
    have hchar := h.netloc_chars c hc
    simp only [freeChar, Bool.and_eq_true] at hchar
    exact hchar.1.1.1.1
  have hslash : w.path ++ w.cleaned =
      '/' :: (List.replicate w.slashes '/' ++ w.segment ++ List.replicate w.trailing '/' ++
        w.cleaned) := by
    simp [path, List.replicate_succ]
  simp only [Meetings.splitNetloc]
  rw [List.takeWhile_append_of_pos hfree, List.dropWhile_append_of_pos hfree, hslash,
    List.takeWhile_cons_of_neg (by decide), List.dropWhile_cons_of_neg (by decide),
    List.append_nil]

theorem Valid.checkNetloc (h : w.Valid) (admits : Text → Bool) :
    checkNetloc admits w.netloc = true := by
  have hplain : plainNetloc w.netloc = true := by
    apply List.all_eq_true.mpr
    intro c hc
    have hchar := h.netloc_chars c hc
    simp only [freeChar, Bool.and_eq_true] at hchar ⊢
    exact ⟨⟨hchar.1.1.2, hchar.1.2⟩, hchar.2⟩
  simp [Meetings.checkNetloc, hplain]

theorem Valid.beforeRest (h : w.Valid) :
    before '?' (before '#' (w.path ++ w.cleaned)) = w.path := by
  have hquery : '?' ∉ w.path := h.not_mem_path (by decide) (by decide)
  have hfragment : '#' ∉ w.path := h.not_mem_path (by decide) (by decide)
  rw [before_append hfragment, before_append hquery]
  rcases h.cleaned with hnil | ⟨more, hq | hf⟩
  · simp [hnil, before]
  · rw [hq]
    simp [before]
  · rw [hf]
    simp [before]

theorem Valid.hostname (h : w.Valid) (parsed : SplitResult) (hn : parsed.netloc = w.netloc) :
    rstrip '.' (lower parsed.hostname) = meetHost := by
  have hport : ∀ c ∈ w.port, freeChar c = true ∧ c ≠ '@' := by
    intro c hc
    rcases h.port with hnil | ⟨digits, hdigits, hfree⟩
    · rw [hnil] at hc
      cases hc
    · rw [hdigits] at hc
      rcases List.mem_cons.mp hc with rfl | hc
      · decide
      · exact hfree c hc
  have hinfo : parsed.netloc.rtakeWhile (· ≠ '@') =
      w.host ++ List.replicate w.dots '.' ++ w.port := by
    have hnot : ∀ c ∈ w.host ++ List.replicate w.dots '.' ++ w.port, decide (c ≠ '@') = true := by
      intro c hc
      rcases List.mem_append.mp hc with hc | hc
      · have hat : '@' ∉ w.host ++ List.replicate w.dots '.' :=
          not_mem_of_hostChar h.dotted_chars (by decide)
        exact decide_eq_true fun heq => hat (heq ▸ hc)
      · exact decide_eq_true (hport c hc).2
    rw [hn, netloc]
    apply rtakeWhile_append hnot
    rcases h.user with hnil | ⟨info, hinfo, -⟩
    · exact Or.inl hnil
    · exact Or.inr ⟨info, '@', hinfo, by decide⟩
  have hbracket : '[' ∉ w.host ++ List.replicate w.dots '.' ++ w.port := by
    intro hmem
    rcases List.mem_append.mp hmem with hmem | hmem
    · exact not_mem_of_hostChar h.dotted_chars (by decide) hmem
    · have hfree := (hport '[' hmem).1
      revert hfree
      decide
  have hcolon : before ':' (w.host ++ List.replicate w.dots '.' ++ w.port) =
      w.host ++ List.replicate w.dots '.' := by
    rw [before_append (not_mem_of_hostChar h.dotted_chars (by decide))]
    rcases h.port with hnil | ⟨digits, hdigits, -⟩
    · simp [hnil, before]
    · simp [hdigits]
  have hzone : '%' ∉ w.host ++ List.replicate w.dots '.' :=
    not_mem_of_hostChar h.dotted_chars (by decide)
  unfold SplitResult.hostname
  simp only [hinfo, if_neg hbracket, hcolon, before_of_not_mem hzone, dropWhile_of_not_mem hzone,
    List.append_nil]
  have hdots : lower (List.replicate w.dots '.') = List.replicate w.dots '.' := by
    rw [lower, List.map_replicate]
    rfl
  rw [lower_append, h.host, hdots, lower_append, hdots]
  apply rstrip_append_replicate
  decide

/-- However it is written, a meeting has one canonical URL and one key. -/
theorem Valid.normalize (h : w.Valid) (admits : Text → Bool) :
    normalizeMeetingUrl admits w.text = .ok (canonical (lower w.segment)) := by
  have hsegment : '/' ∉ w.segment :=
    fun hmem => ne_of_pattern (h.segment_chars '/' hmem) (by decide) rfl
  have hne : w.segment ≠ [] := by
    intro hnil
    have hcode := ne_nil_of_isCode h.segment
    rw [hnil] at hcode
    exact hcode rfl
  refine normalize_eq_ok.mpr ⟨⟨https, w.netloc, w.path,
    after '?' (before '#' (w.path ++ w.cleaned)), after '#' (w.path ++ w.cleaned)⟩,
    w.segment, ?_, ⟨?_, ?_, ?_, h.segment⟩, rfl⟩
  · unfold urlsplit
    simp only [h.clean, h.splitScheme, h.splitNetloc, h.checkNetloc, h.beforeRest, if_true]
  · have hlower : lower https = https := by decide
    exact hlower
  · exact h.hostname _ rfl
  · simp only [path]
    rw [segments_append_slashes, segments_slashes]
    exact segments_of_not_mem hsegment hne

end Spelling

/-- The shortest way to write it. -/
def plainSpelling (code : Text) : Spelling where
  scheme := https
  user := []
  host := meetHost
  dots := 0
  port := []
  slashes := 0
  segment := code
  trailing := 0
  rest := []

theorem valid_plainSpelling {code : Text} (h : isCode code = true) :
    (plainSpelling code).Valid := by
  constructor
  · exact lower_https
  · exact Or.inl rfl
  · exact lower_meetHost
  · exact Or.inl rfl
  · rw [plainSpelling, lower_of_isCode h]
    exact h
  · exact Or.inl rfl

theorem text_plainSpelling (code : Text) : (plainSpelling code).text = (canonical code).1 := by
  simp [Spelling.text, Spelling.netloc, Spelling.path, plainSpelling, canonical, urlunsplit]

end spelling

section canonical

variable {admits : Text → Bool} {u : Text} {r : Text × Text}

/-- The segment of the path of a URL, if there is one that is not empty. -/
def segmentOf (admits : Text → Bool) (u : Text) : Option Text :=
  match (urlsplit admits u).map fun parsed => segments parsed.path with
  | some [segment] => some segment
  | _ => none

theorem normalize_segment (h : normalizeMeetingUrl admits u = .ok r) :
    ∃ segment, segmentOf admits u = some segment ∧ isCode (lower segment) = true ∧
      r = canonical (lower segment) := by
  obtain ⟨parsed, segment, hsplit, hnames, rfl⟩ := normalize_eq_ok.mp h
  refine ⟨segment, ?_, hnames.code, rfl⟩
  simp [segmentOf, hsplit, hnames.path]

theorem normalize_of_isCode {code : Text} (h : isCode code = true) (admits : Text → Bool) :
    normalizeMeetingUrl admits (canonical code).1 = .ok (canonical code) := by
  have hnormal := (valid_plainSpelling h).normalize admits
  rw [text_plainSpelling, plainSpelling, lower_of_isCode h] at hnormal
  exact hnormal

theorem normalize_canonical (h : normalizeMeetingUrl admits u = .ok r) :
    normalizeMeetingUrl admits r.1 = .ok r := by
  obtain ⟨segment, -, hcode, rfl⟩ := normalize_segment h
  exact normalize_of_isCode hcode admits

/-- The pair that a URL is normalised to is determined by its segment in lower case, determines it,
and is normal; the accepted URLs are those that name a meeting in any of the ways to write them. -/
theorem normalization_canonical (admits : Text → Bool) :
    (∀ u r, normalizeMeetingUrl admits u = .ok r →
      r.1 = "https://".toList ++ r.2 ∧ normalizeMeetingUrl admits r.1 = .ok r ∧
      ∃ segment, segmentOf admits u = some segment ∧ r.2 = meetHost ++ '/' :: lower segment) ∧
    (∀ w : Spelling, w.Valid → normalizeMeetingUrl admits w.text =
      .ok (urlunsplit https meetHost ('/' :: lower w.segment),
        meetHost ++ '/' :: lower w.segment)) ∧
    (∀ u v r r', normalizeMeetingUrl admits u = .ok r → normalizeMeetingUrl admits v = .ok r' →
      (r.1 = r'.1 ↔ r.2 = r'.2) ∧
      (r.2 = r'.2 ↔ (segmentOf admits u).map lower = (segmentOf admits v).map lower)) ∧
    ∀ u, (∃ r, normalizeMeetingUrl admits u = .ok r) ↔ ∃ parsed segment,
      urlsplit admits u = some parsed ∧ lower parsed.scheme = https ∧
      rstrip '.' (lower parsed.hostname) = meetHost ∧
      segments parsed.path = [segment] ∧ isCode (lower segment) = true := by
  refine ⟨fun u r h => ?_, fun w hw => hw.normalize admits, fun u v r r' h h' => ?_, fun u => ?_⟩
  · obtain ⟨segment, hsegment, -, rfl⟩ := normalize_segment h
    refine ⟨?_, normalize_canonical h, segment, hsegment, rfl⟩
    have hstart : "https://".toList = https ++ [':', '/', '/'] := by decide
    simp [canonical, urlunsplit, hstart]
  · obtain ⟨segment, hsegment, -, rfl⟩ := normalize_segment h
    obtain ⟨other, hother, -, rfl⟩ := normalize_segment h'
    rw [canonical_fst_eq, canonical_snd_eq, hsegment, hother, Option.map_some, Option.map_some,
      Option.some.injEq]
    exact ⟨Iff.rfl, Iff.rfl⟩
  · constructor
    · rintro ⟨r, h⟩
      obtain ⟨parsed, segment, hsplit, hnames, -⟩ := normalize_eq_ok.mp h
      exact ⟨parsed, segment, hsplit, hnames.scheme, hnames.host, hnames.path, hnames.code⟩
    · rintro ⟨parsed, segment, hsplit, hscheme, hhost, hpath, hcode⟩
      exact ⟨_, normalize_eq_ok.mpr ⟨parsed, segment, hsplit, ⟨hscheme, hhost, hpath, hcode⟩, rfl⟩⟩

end canonical

end Fakery.Meetings

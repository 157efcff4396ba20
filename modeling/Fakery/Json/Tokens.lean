import Fakery.Json.Value
import Mathlib.Data.List.TakeWhile

/-! The strings and the numbers of JSON: how they are written in ASCII, and how they are read. -/
namespace Fakery.Json
open Fakery.Texts

section write

/-- `f"{n:04x}"` -/
def hex4 (n : ℕ) : Text :=
  [Nat.digitChar (n / 4096 % 16), Nat.digitChar (n / 256 % 16), Nat.digitChar (n / 16 % 16),
    Nat.digitChar (n % 16)]

def unicodeEscape (n : ℕ) : Text := '\\' :: 'u' :: hex4 n

/-- What stands for a character in a string. Beyond the basic plane that is a surrogate pair. -/
def escapeChar (c : Char) : Text :=
  if c = '"' then ['\\', '"']
  else if c = '\\' then ['\\', '\\']
  else if c = '\n' then ['\\', 'n']
  else if c = '\r' then ['\\', 'r']
  else if c = '\t' then ['\\', 't']
  else if c = '\x08' then ['\\', 'b']
  else if c = '\x0c' then ['\\', 'f']
  else if 32 ≤ c.toNat ∧ c.toNat ≤ 126 then [c]
  else if c.toNat < 0x10000 then unicodeEscape c.toNat
  else unicodeEscape (0xd800 + (c.toNat - 0x10000) / 0x400) ++
    unicodeEscape (0xdc00 + (c.toNat - 0x10000) % 0x400)

def escape (s : Text) : Text := s.flatMap escapeChar

def quote (s : Text) : Text := '"' :: (escape s ++ ['"'])

def intText : ℤ → Text
  | .ofNat n => Nat.toDigits 10 n
  | .negSucc n => '-' :: Nat.toDigits 10 (n + 1)

end write

section read

def hexValue (c : Char) : Option ℕ :=
  if '0' ≤ c ∧ c ≤ '9' then some (c.toNat - 48)
  else if 'a' ≤ c ∧ c ≤ 'f' then some (c.toNat - 87)
  else if 'A' ≤ c ∧ c ≤ 'F' then some (c.toNat - 55)
  else none

def readHex4 : Text → Option (ℕ × Text)
  | a :: b :: c :: d :: s => do
    let a ← hexValue a
    let b ← hexValue b
    let c ← hexValue c
    let d ← hexValue d
    some (4096 * a + 256 * b + 16 * c + d, s)
  | _ => none

def highSurrogate (n : ℕ) : Bool := 0xd800 ≤ n && n < 0xdc00

def lowSurrogate (n : ℕ) : Bool := 0xdc00 ≤ n && n < 0xe000

/-- The digits after `\u`, and those of a second escape where the first is half of a pair. A half
that stands alone is left out: a text has no character for it. -/
def readUnicode (s : Text) : Option (Char × Text) := do
  let (n, s) ← readHex4 s
  if highSurrogate n then
    match s with
    | '\\' :: 'u' :: s => do
      let (m, s) ← readHex4 s
      if lowSurrogate m then
        some (Char.ofNat (0x10000 + (n - 0xd800) * 0x400 + (m - 0xdc00)), s)
      else none
    | _ => none
  else if lowSurrogate n then none
  else some (Char.ofNat n, s)

/-- What follows a backslash. -/
def unescape : Text → Option (Char × Text)
  | '"' :: s => some ('"', s)
  | '\\' :: s => some ('\\', s)
  | '/' :: s => some ('/', s)
  | 'b' :: s => some ('\x08', s)
  | 'f' :: s => some ('\x0c', s)
  | 'n' :: s => some ('\n', s)
  | 'r' :: s => some ('\r', s)
  | 't' :: s => some ('\t', s)
  | 'u' :: s => readUnicode s
  | _ => none

/-- A character that is not the end of a string. `strict` refuses control characters. -/
def readChar (c : Char) (s : Text) : Option (Char × Text) :=
  if c = '\\' then unescape s else if c.toNat < 32 then none else some (c, s)

/-- A string after its first quotation mark. -/
def scanString : ℕ → Text → Option (Text × Text)
  | 0, _ | _ + 1, [] => none
  | fuel + 1, c :: s =>
    if c = '"' then some ([], s)
    else do
      let (c, s) ← readChar c s
      let (text, s) ← scanString fuel s
      some (c :: text, s)

def readNat : Text → Option (ℕ × Text)
  | '0' :: s => some (0, s)
  | s =>
    if s.takeWhile Char.isDigit = [] then none
    else some (Nat.ofDigitChars 10 (s.takeWhile Char.isDigit) 0, s.dropWhile Char.isDigit)

def readInt : Text → Option (ℤ × Text)
  | '-' :: s => (readNat s).map fun (n, s) => (-(n : ℤ), s)
  | s => (readNat s).map fun (n, s) => ((n : ℤ), s)

end read

section hex

variable {n : ℕ} {s : Text}

theorem hexValue_digitChar : ∀ d < 16, hexValue (Nat.digitChar d) = some d := by
  decide

theorem readHex4_hex4 (h : n < 0x10000) : readHex4 (hex4 n ++ s) = some (n, s) := by
  have hdigit : ∀ m, hexValue (Nat.digitChar (m % 16)) = some (m % 16) := fun m =>
    hexValue_digitChar _ (Nat.mod_lt _ (by decide))
  have hsum : 4096 * (n / 4096 % 16) + 256 * (n / 256 % 16) + 16 * (n / 16 % 16) + n % 16 = n := by
    omega
  simp only [hex4, List.cons_append, List.nil_append, readHex4, hdigit, Option.bind_eq_bind,
    Option.bind_some, hsum]

end hex

section strings

variable {c : Char} {fuel n m : ℕ} {s t : Text}

theorem not_surrogate (c : Char) :
    highSurrogate c.toNat = false ∧ lowSurrogate c.toNat = false := by
  have hvalid : c.toNat < 0xd800 ∨ 0xdfff < c.toNat ∧ c.toNat < 0x110000 := c.valid
  simp only [highSurrogate, lowSurrogate, Bool.and_eq_false_iff, decide_eq_false_iff_not]
  omega

theorem toNat_lt (c : Char) : c.toNat < 0x110000 := by
  have hvalid : c.toNat < 0xd800 ∨ 0xdfff < c.toNat ∧ c.toNat < 0x110000 := c.valid
  omega

theorem readUnicode_basic (h : c.toNat < 0x10000) :
    readUnicode (hex4 c.toNat ++ s) = some (c, s) := by
  simp only [readUnicode, readHex4_hex4 h, Option.bind_eq_bind, Option.bind_some,
    (not_surrogate c).1, (not_surrogate c).2, Bool.false_eq_true, if_false, Char.ofNat_toNat]

theorem lt_of_surrogate (h : highSurrogate n = true ∨ lowSurrogate n = true) : n < 0x10000 := by
  simp only [highSurrogate, lowSurrogate, Bool.and_eq_true, decide_eq_true_eq] at h
  omega

/-- The two halves of a pair are put together again. -/
theorem readUnicode_pair (hn : highSurrogate n = true) (hm : lowSurrogate m = true)
    (hjoin : 0x10000 + (n - 0xd800) * 0x400 + (m - 0xdc00) = c.toNat) :
    readUnicode (hex4 n ++ unicodeEscape m ++ s) = some (c, s) := by
  have hhigh := readHex4_hex4 (s := unicodeEscape m ++ s) (lt_of_surrogate (Or.inl hn))
  have hlow := readHex4_hex4 (s := s) (lt_of_surrogate (Or.inr hm))
  rw [List.append_assoc, readUnicode, hhigh]
  simp only [Option.bind_eq_bind, Option.bind_some, hn, if_true, unicodeEscape, List.cons_append,
    hlow, hm, hjoin, Char.ofNat_toNat]

theorem halves (h : 0x10000 ≤ c.toNat) :
    highSurrogate (0xd800 + (c.toNat - 0x10000) / 0x400) = true ∧
      lowSurrogate (0xdc00 + (c.toNat - 0x10000) % 0x400) = true ∧
      0x10000 + (0xd800 + (c.toNat - 0x10000) / 0x400 - 0xd800) * 0x400 +
        (0xdc00 + (c.toNat - 0x10000) % 0x400 - 0xdc00) = c.toNat := by
  have hlt := toNat_lt c
  simp only [highSurrogate, lowSurrogate, Bool.and_eq_true, decide_eq_true_eq]
  omega

theorem scanString_plain (hquote : c ≠ '"') (hslash : c ≠ '\\') (h : 32 ≤ c.toNat) :
    scanString (fuel + 1) (c :: s) =
      (scanString fuel s).map fun p => (c :: p.1, p.2) := by
  have hlow : ¬c.toNat < 32 := by omega
  simp only [scanString, if_neg hquote, readChar, if_neg hslash, if_neg hlow, Option.bind_eq_bind,
    Option.bind_some]
  cases scanString fuel s <;> rfl

theorem scanString_escaped (h : unescape t = some (c, s)) :
    scanString (fuel + 1) ('\\' :: t) = (scanString fuel s).map fun p => (c :: p.1, p.2) := by
  have hne : ¬ '\\' = '"' := by decide
  simp only [scanString, if_neg hne, readChar, if_true, h, Option.bind_eq_bind, Option.bind_some]
  cases scanString fuel s <;> rfl

/-- One character of a string, however it is written. -/
theorem scanString_escapeChar (c : Char) : scanString (fuel + 1) (escapeChar c ++ s) =
    (scanString fuel s).map fun p => (c :: p.1, p.2) := by
  unfold escapeChar
  split_ifs with h1 h2 h3 h4 h5 h6 h7 hprint hbasic
  · subst h1; exact scanString_escaped rfl
  · subst h2; exact scanString_escaped rfl
  · subst h3; exact scanString_escaped rfl
  · subst h4; exact scanString_escaped rfl
  · subst h5; exact scanString_escaped rfl
  · subst h6; exact scanString_escaped rfl
  · subst h7; exact scanString_escaped rfl
  · exact scanString_plain h1 h2 hprint.1
  · exact scanString_escaped (readUnicode_basic hbasic)
  · obtain ⟨hhigh, hlow, hjoin⟩ := halves (Nat.le_of_not_lt hbasic)
    rw [List.append_assoc, unicodeEscape, List.cons_append, List.cons_append, ← List.append_assoc]
    exact scanString_escaped (readUnicode_pair hhigh hlow hjoin)

theorem length_escapeChar_pos (c : Char) : 1 ≤ (escapeChar c).length := by
  unfold escapeChar
  split_ifs <;> simp [unicodeEscape]

theorem length_le_escape (s : Text) : s.length ≤ (escape s).length := by
  induction s with
  | nil => exact le_rfl
  | cons c s ih =>
    have hc := length_escapeChar_pos c
    simp only [escape, List.flatMap_cons, List.length_append, List.length_cons] at ih ⊢
    omega

/-- A string is read back as it was. -/
theorem scanString_escape (h : s.length < fuel) :
    scanString fuel (escape s ++ '"' :: t) = some (s, t) := by
  induction s generalizing fuel with
  | nil =>
    obtain ⟨fuel, rfl⟩ := Nat.exists_eq_succ_of_ne_zero (Nat.ne_of_gt h)
    rfl
  | cons c s ih =>
    rw [List.length_cons] at h
    obtain ⟨fuel, rfl⟩ := Nat.exists_eq_succ_of_ne_zero (Nat.ne_of_gt (Nat.zero_lt_of_lt h))
    have hrest := ih (Nat.lt_of_succ_lt_succ h)
    simp only [escape, List.flatMap_cons, List.append_assoc] at hrest ⊢
    rw [Nat.succ_eq_add_one, scanString_escapeChar, hrest]
    rfl

end strings

section numbers

variable {n : ℕ} {s : Text}

/-- What may follow a number. -/
def Delimited (s : Text) : Prop := s.head?.all (fun c => !c.isDigit) = true

theorem takeWhile_digits {ds : Text} (hds : ∀ c ∈ ds, c.isDigit = true) (hs : Delimited s) :
    (ds ++ s).takeWhile Char.isDigit = ds ∧ (ds ++ s).dropWhile Char.isDigit = s := by
  have hstop : s.takeWhile Char.isDigit = [] ∧ s.dropWhile Char.isDigit = s := by
    cases s with
    | nil => exact ⟨rfl, rfl⟩
    | cons c s =>
      have hc : c.isDigit = false := by simpa [Delimited] using hs
      simp [hc]
  rw [List.takeWhile_append_of_pos hds, List.dropWhile_append_of_pos hds, hstop.1, hstop.2]
  exact ⟨List.append_nil ds, rfl⟩

theorem isDigit_toDigits : ∀ c ∈ Nat.toDigits 10 n, c.isDigit = true := fun _ hc =>
  Nat.isDigit_of_mem_toDigits (by decide) (by decide) hc

/-- Only zero is written with a leading zero. -/
theorem toDigits_cases (n : ℕ) : n = 0 ∨
    ∃ d ds, Nat.toDigits 10 n = d :: ds ∧ d ≠ '0' ∧ d.isDigit = true := by
  induction n using Nat.base_induction 10 (by decide) with
  | single m hm =>
    rcases Nat.eq_zero_or_pos m with hzero | hpos
    · exact Or.inl hzero
    · refine Or.inr ⟨m.digitChar, [], Nat.toDigits_of_lt_base hm, ?_, ?_⟩
      · rw [Ne, Nat.digitChar_eq_zero]
        omega
      · rw [Nat.isDigit_digitChar]
        exact decide_eq_true hm
  | digit m k hk hm ih =>
    rcases ih with hzero | ⟨d, ds, hd, hne, hdigit⟩
    · omega
    · refine Or.inr ⟨d, ds ++ Nat.toDigits 10 k, ?_, hne, hdigit⟩
      rw [← Nat.toDigits_append_toDigits (by decide) hm hk, hd, List.cons_append]

theorem readNat_of_ne {d : Char} {ds : Text} (hd : d ≠ '0') (hdigit : d.isDigit = true) :
    readNat (d :: ds) = some (Nat.ofDigitChars 10 ((d :: ds).takeWhile Char.isDigit) 0,
      (d :: ds).dropWhile Char.isDigit) := by
  have hne : (d :: ds).takeWhile Char.isDigit ≠ [] := by
    rw [List.takeWhile_cons_of_pos hdigit]
    exact List.cons_ne_nil _ _
  rw [readNat]
  · rw [if_neg hne]
  · rintro s heq
    exact hd (List.cons.inj heq).1

theorem readNat_toDigits (h : Delimited s) : readNat (Nat.toDigits 10 n ++ s) = some (n, s) := by
  rcases toDigits_cases n with rfl | ⟨d, ds, hd, hne, hdigit⟩
  · rfl
  · have hsplit := takeWhile_digits (isDigit_toDigits (n := n)) h
    rw [hd, List.cons_append] at hsplit
    rw [hd, List.cons_append, readNat_of_ne hne hdigit, hsplit.1, hsplit.2, ← hd,
      Nat.ofDigitChars_ten_toDigits]

theorem readInt_intText (n : ℤ) (h : Delimited s) : readInt (intText n ++ s) = some (n, s) := by
  cases n with
  | ofNat n =>
    have hnat := readNat_toDigits (n := n) h
    have hminus : ∀ t, Nat.toDigits 10 n ++ s ≠ '-' :: t := by
      intro t heq
      have hhead : '-' ∈ Nat.toDigits 10 n := by
        rcases hds : Nat.toDigits 10 n with - | ⟨d, ds⟩
        · exact absurd hds Nat.toDigits_ne_nil
        · rw [hds, List.cons_append] at heq
          rw [← (List.cons.inj heq).1]
          exact List.mem_cons_self
      exact absurd (isDigit_toDigits '-' hhead) (by decide)
    rw [intText, readInt, hnat]
    · rfl
    · exact hminus
  | negSucc n =>
    have hnat := readNat_toDigits (n := n + 1) h
    rw [intText, List.cons_append, readInt, hnat]
    rfl

end numbers

end Fakery.Json

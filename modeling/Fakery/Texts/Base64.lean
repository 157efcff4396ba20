import Fakery.Texts.Strings

/-! Base64: bytes by three as characters by four, and a reader that passes over whatever is no
digit. -/
namespace Fakery.Texts

abbrev Octets := List UInt8

namespace Base64

/-- The capitals, the small letters, the decimal digits, `+` and `/`. -/
def alphabet : Text :=
  (List.range 26).map (fun n => Char.ofNat (65 + n)) ++
    (List.range 26).map (fun n => Char.ofNat (97 + n)) ++
    (List.range 10).map (fun n => Char.ofNat (48 + n)) ++ ['+', '/']

/-- The digit that stands for six bits. -/
def digit (n : ℕ) : Char := alphabet.getD n '='

def value (c : Char) : Option ℕ := alphabet.idxOf? c

/-- `btoa` -/
def encode : Octets → Text
  | [] => []
  | [a] => [digit (a.toNat / 4), digit (a.toNat % 4 * 16), '=', '=']
  | [a, b] =>
    [digit (a.toNat / 4), digit (a.toNat % 4 * 16 + b.toNat / 16), digit (b.toNat % 16 * 4), '=']
  | a :: b :: c :: rest =>
    digit (a.toNat / 4) :: digit (a.toNat % 4 * 16 + b.toNat / 16) ::
      digit (b.toNat % 16 * 4 + c.toNat / 64) :: digit (c.toNat % 64) :: encode rest

/-- Where a reader is among four digits, with the bits it has not yet given out. -/
inductive Quad where
  | first
  | second (left : ℕ)
  | third (left : ℕ)
  | fourth (left : ℕ)
deriving DecidableEq

def Quad.position : Quad → ℕ
  | first => 0
  | second _ => 1
  | third _ => 2
  | fourth _ => 3

/-- A digit is read. -/
def Quad.next (n : ℕ) : Quad → Octets × Quad
  | first => ([], .second n)
  | second left => ([UInt8.ofNat (left * 4 + n / 16)], .third (n % 16))
  | third left => ([UInt8.ofNat (left * 16 + n / 4)], .fourth (n % 4))
  | fourth left => ([UInt8.ofNat (left * 64 + n)], .first)

/-- `binascii.a2b_base64` that is not strict. A padding that is long enough ends the text, and a
text that ends among four digits raises. -/
def decodeFrom (quad : Quad) (pads : ℕ) : Text → Option Octets
  | [] => if quad = .first then some [] else none
  | '=' :: text =>
    if 2 ≤ quad.position then
      if 4 ≤ quad.position + (pads + 1) then some [] else decodeFrom quad (pads + 1) text
    else decodeFrom quad pads text
  | c :: text => match value c with
    | none => decodeFrom quad pads text
    | some n => (decodeFrom (quad.next n).2 0 text).map ((quad.next n).1 ++ ·)

/-- `base64.b64decode`, which raises on a text that is not ASCII. -/
def decode (text : Text) : Option Octets :=
  if text.all (·.toNat < 128) then decodeFrom .first 0 text else none

section roundTrip

variable {n a b c : ℕ} {quad : Quad} {pads : ℕ} {text : Text}

/-- What is checked of each of the digits. -/
theorem digits_checked : ∀ n < 64,
    value (digit n) = some n ∧ digit n ≠ '=' ∧ (digit n).toNat < 128 := by
  decide +kernel

theorem value_digit (h : n < 64) : value (digit n) = some n := (digits_checked n h).1

theorem digit_ne_pad (h : n < 64) : digit n ≠ '=' := (digits_checked n h).2.1

theorem digit_ascii (h : n < 64) : (digit n).toNat < 128 := (digits_checked n h).2.2

theorem decodeFrom_digit (h : n < 64) : decodeFrom quad pads (digit n :: text) =
    (decodeFrom (quad.next n).2 0 text).map ((quad.next n).1 ++ ·) := by
  rw [decodeFrom]
  · rw [value_digit h]
  · exact digit_ne_pad h

theorem decodeFrom_two {a b : ℕ} (ha : a < 64) (hb : b < 64) :
    decodeFrom .first pads (digit a :: digit b :: text) =
      (decodeFrom (.third (b % 16)) 0 text).map (UInt8.ofNat (a * 4 + b / 16) :: ·) := by
  rw [decodeFrom_digit ha, Quad.next, decodeFrom_digit hb, Quad.next, Option.map_map]
  rfl

theorem decodeFrom_three {left c : ℕ} (hc : c < 64) :
    decodeFrom (.third left) pads (digit c :: text) =
      (decodeFrom (.fourth (c % 4)) 0 text).map (UInt8.ofNat (left * 16 + c / 4) :: ·) := by
  rw [decodeFrom_digit hc, Quad.next]
  rfl

theorem decodeFrom_four {left d : ℕ} (hd : d < 64) :
    decodeFrom (.fourth left) pads (digit d :: text) =
      (decodeFrom .first 0 text).map (UInt8.ofNat (left * 64 + d) :: ·) := by
  rw [decodeFrom_digit hd, Quad.next]
  rfl

theorem decodeFrom_encode (data : Octets) : decodeFrom .first 0 (encode data) = some data := by
  induction data using encode.induct with
  | case1 => rfl
  | case2 a =>
    have ha := a.toNat_lt
    have hbits : a.toNat / 4 * 4 + a.toNat % 4 * 16 / 16 = a.toNat := by omega
    rw [encode, decodeFrom_two (by omega) (by omega), hbits, UInt8.ofNat_toNat]
    rfl
  | case3 a b =>
    have ha := a.toNat_lt
    have hb := b.toNat_lt
    have hfirst : a.toNat / 4 * 4 + (a.toNat % 4 * 16 + b.toNat / 16) / 16 = a.toNat := by omega
    have hsecond : (a.toNat % 4 * 16 + b.toNat / 16) % 16 * 16 + b.toNat % 16 * 4 / 4 =
        b.toNat := by omega
    rw [encode, decodeFrom_two (by omega) (by omega), decodeFrom_three (by omega), hfirst, hsecond,
      UInt8.ofNat_toNat, UInt8.ofNat_toNat]
    rfl
  | case4 a b c rest ih =>
    have ha := a.toNat_lt
    have hb := b.toNat_lt
    have hc := c.toNat_lt
    have hfirst : a.toNat / 4 * 4 + (a.toNat % 4 * 16 + b.toNat / 16) / 16 = a.toNat := by omega
    have hsecond : (a.toNat % 4 * 16 + b.toNat / 16) % 16 * 16 +
        (b.toNat % 16 * 4 + c.toNat / 64) / 4 = b.toNat := by omega
    have hthird : (b.toNat % 16 * 4 + c.toNat / 64) % 4 * 64 + c.toNat % 64 = c.toNat := by omega
    rw [encode, decodeFrom_two (by omega) (by omega), decodeFrom_three (by omega),
      decodeFrom_four (by omega), ih, hfirst, hsecond, hthird]
    simp

theorem encode_ascii (data : Octets) : (encode data).all (·.toNat < 128) = true := by
  have hdigit : ∀ n < 64, decide ((digit n).toNat < 128) = true := fun n h =>
    decide_eq_true (digit_ascii h)
  induction data using encode.induct with
  | case1 => rfl
  | case2 a =>
    have ha := a.toNat_lt
    simp only [encode, List.all_cons, hdigit _ (show a.toNat / 4 < 64 by omega),
      hdigit _ (show a.toNat % 4 * 16 < 64 by omega)]
    rfl
  | case3 a b =>
    have ha := a.toNat_lt
    have hb := b.toNat_lt
    simp only [encode, List.all_cons, hdigit _ (show a.toNat / 4 < 64 by omega),
      hdigit _ (show a.toNat % 4 * 16 + b.toNat / 16 < 64 by omega),
      hdigit _ (show b.toNat % 16 * 4 < 64 by omega)]
    rfl
  | case4 a b c rest ih =>
    have ha := a.toNat_lt
    have hb := b.toNat_lt
    have hc := c.toNat_lt
    simp only [encode, List.all_cons, hdigit _ (show a.toNat / 4 < 64 by omega),
      hdigit _ (show a.toNat % 4 * 16 + b.toNat / 16 < 64 by omega),
      hdigit _ (show b.toNat % 16 * 4 + c.toNat / 64 < 64 by omega),
      hdigit _ (show c.toNat % 64 < 64 by omega), ih]
    rfl

/-- What was encoded is read back. -/
theorem decode_encode (data : Octets) : decode (encode data) = some data := by
  rw [decode, if_pos (encode_ascii data), decodeFrom_encode]

end roundTrip

end Base64

end Fakery.Texts

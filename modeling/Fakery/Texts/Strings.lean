import Mathlib.Data.List.Basic
import Mathlib.Data.Nat.Notation
import Mathlib.Logic.Function.Basic

/-! Texts as lists of characters: numbers with leading zeros, hexadecimal digests, and the parts
that `split`, `removeprefix` and `removesuffix` leave. -/
namespace Fakery.Texts

abbrev Text := List Char

section numbers

variable {n : ℕ} {s t : Text}

/-- `f"{n:0{w}d}"` -/
def pad (w n : ℕ) : Text :=
  List.replicate (w - (Nat.toDigits 10 n).length) '0' ++ Nat.toDigits 10 n

theorem ofDigitChars_pad (w n : ℕ) : Nat.ofDigitChars 10 (pad w n) 0 = n := by
  rw [pad, Nat.ofDigitChars_append, Nat.ofDigitChars_replicate_zero, Nat.mul_zero,
    Nat.ofDigitChars_ten_toDigits]

theorem pad_injective (w : ℕ) : Function.Injective (pad w) := by
  intro m n h
  rw [← ofDigitChars_pad w m, h, ofDigitChars_pad]

theorem isDigit_pad (w n : ℕ) : ∀ c ∈ pad w n, c.isDigit = true := by
  intro c hc
  rcases List.mem_append.mp hc with hc | hc
  · rw [List.eq_of_mem_replicate hc]
    rfl
  · exact Nat.isDigit_of_mem_toDigits (by decide) (by decide) hc

theorem length_pad {w : ℕ} (h : (Nat.toDigits 10 n).length ≤ w) : (pad w n).length = w := by
  rw [pad, List.length_append, List.length_replicate, Nat.sub_add_cancel h]

/-- Two hexadecimal digits for every byte. -/
def hexdigest (digest : List UInt8) : Text :=
  digest.flatMap fun b => [Nat.digitChar (b.toNat / 16), Nat.digitChar (b.toNat % 16)]

theorem digitChar_inj {d e : ℕ} (hd : d < 16) (he : e < 16)
    (h : Nat.digitChar d = Nat.digitChar e) : d = e := by
  revert e
  revert d
  decide

theorem hexdigest_injective : Function.Injective hexdigest := by
  intro a
  induction a with
  | nil =>
    intro b h
    cases b with
    | nil => rfl
    | cons y b => cases h
  | cons x a ih =>
    intro b h
    cases b with
    | nil => cases h
    | cons y b =>
      simp only [hexdigest, List.flatMap_cons, List.cons_append, List.nil_append,
        List.cons.injEq] at h
      obtain ⟨hhigh, hlow, hrest⟩ := h
      have hx := x.toNat_lt
      have hy := y.toNat_lt
      have hdiv := digitChar_inj (by omega) (by omega) hhigh
      have hmod := digitChar_inj (Nat.mod_lt _ (by decide)) (Nat.mod_lt _ (by decide)) hlow
      have hxy : x = y := UInt8.toNat_inj.mp (by omega)
      rw [hxy, ih hrest]

end numbers

section cut

variable {c : Char} {p s t : Text}

def removeprefix (p s : Text) : Text := if p.isPrefixOf s then s.drop p.length else s

def removesuffix (p s : Text) : Text := if p.isSuffixOf s then s.take (s.length - p.length) else s

theorem removeprefix_append (p s : Text) : removeprefix p (p ++ s) = s := by
  unfold removeprefix
  rw [if_pos (List.isPrefixOf_iff_prefix.mpr (List.prefix_append p s)), List.drop_left]

theorem removesuffix_append (p s : Text) : removesuffix p (s ++ p) = s := by
  rw [removesuffix, if_pos (List.isSuffixOf_iff_suffix.mpr (List.suffix_append s p)),
    List.length_append, Nat.add_sub_cancel, List.take_left]

theorem removesuffix_of_not (h : ¬p <:+ s) : removesuffix p s = s :=
  if_neg fun hsuffix => h (List.isSuffixOf_iff_suffix.mp hsuffix)

/-- `s.split(c, n)` -/
def split (c : Char) : ℕ → Text → List Text
  | 0, s => [s]
  | n + 1, s =>
    if c ∈ s then s.takeWhile (· ≠ c) :: split c n ((s.dropWhile (· ≠ c)).drop 1) else [s]

theorem split_cons (n : ℕ) (h : c ∉ s) : split c (n + 1) (s ++ c :: t) = s :: split c n t := by
  have hmem : c ∈ s ++ c :: t := List.mem_append_right _ List.mem_cons_self
  have hne : ∀ x ∈ s, decide (x ≠ c) = true := by
    intro x hx
    simpa using ne_of_mem_of_not_mem hx h
  rw [split, if_pos hmem, List.takeWhile_append_of_pos hne, List.dropWhile_append_of_pos hne,
    List.takeWhile_cons_of_neg (by simp), List.dropWhile_cons_of_neg (by simp), List.append_nil,
    List.drop_succ_cons, List.drop_zero]

theorem split_of_not_mem (n : ℕ) (h : c ∉ s) : split c n s = [s] := by
  cases n with
  | zero => rfl
  | succ n => exact if_neg h

end cut

end Fakery.Texts

import Mathlib.Data.List.DropRight

/-! Labels of RFC 1123. A label that is continued, cut and stripped of hyphens is a label. -/
namespace Fakery.Labels

def edgeChar (c : Char) : Bool := ('a' ≤ c && c ≤ 'z') || ('0' ≤ c && c ≤ '9')

def labelChar (c : Char) : Bool := edgeChar c || c = '-'

structure IsLabel (s : List Char) : Prop where
  pos : 1 ≤ s.length
  short : s.length ≤ 63
  chars : ∀ c ∈ s, labelChar c = true
  head : s.head?.any edgeChar = true
  last : s.getLast?.any edgeChar = true

instance (s : List Char) : Decidable (IsLabel s) :=
  decidable_of_iff (1 ≤ s.length ∧ s.length ≤ 63 ∧ s.all labelChar = true ∧
      s.head?.any edgeChar = true ∧ s.getLast?.any edgeChar = true)
    ⟨fun ⟨hp, hs, hc, hh, hl⟩ => ⟨hp, hs, List.all_eq_true.mp hc, hh, hl⟩,
      fun h => ⟨h.pos, h.short, List.all_eq_true.mpr h.chars, h.head, h.last⟩⟩

section strip

variable {α : Type} {P : α → Bool} {s t : List α}

theorem rdropWhile_of_last (h : s.getLast?.any P = false) : s.rdropWhile P = s := by
  rw [List.rdropWhile_eq_self_iff]
  intro hne hlast
  rw [List.getLast?_eq_some_getLast hne, Option.any_some] at h
  exact Bool.false_ne_true (h.symm.trans hlast)

/-- What is taken off an end does not reach beyond a character that stays. -/
theorem prefix_rdropWhile (h : s.getLast?.any P = false) : s <+: (s ++ t).rdropWhile P := by
  induction t using List.reverseRecOn with
  | nil =>
    have hsame : (s ++ []).rdropWhile P = s := by
      rw [List.append_nil, rdropWhile_of_last h]
    exact ⟨[], by rw [hsame, List.append_nil]⟩
  | append_singleton t x ih =>
    rw [← List.append_assoc, List.rdropWhile_concat]
    split_ifs
    · exact ih
    · rw [List.append_assoc]
      exact List.prefix_append s (t ++ [x])

end strip

section labels

variable {s t : List Char} {c : Char} {n : ℕ}

theorem edgeChar_of_labelChar (h : labelChar c = true) (hc : c ≠ '-') : edgeChar c = true := by
  rcases Bool.or_eq_true_iff.mp h with hedge | hhyphen
  · exact hedge
  · exact absurd (of_decide_eq_true hhyphen) hc

theorem ne_hyphen_of_edgeChar (h : edgeChar c = true) : c ≠ '-' := by
  rintro rfl
  revert h
  decide

theorem labelChar_of_edgeChar (h : edgeChar c = true) : labelChar c = true :=
  Bool.or_eq_true_iff.mpr (Or.inl h)

theorem IsLabel.last_ne_hyphen (h : IsLabel s) : s.getLast?.any (· = '-') = false := by
  have hlast := h.last
  cases hs : s.getLast? with
  | none => rfl
  | some c =>
    rw [hs, Option.any_some] at hlast
    rw [Option.any_some]
    exact decide_eq_false (ne_hyphen_of_edgeChar hlast)

theorem IsLabel.clipped (h : IsLabel s) (ht : ∀ c ∈ t, labelChar c = true) (hs : s.length ≤ n)
    (hn : n ≤ 63) : IsLabel (((s ++ t).take n).rdropWhile (· = '-')) := by
  have htake : (s ++ t).take n = s ++ t.take (n - s.length) := by
    rw [List.take_append, List.take_of_length_le hs]
  have hfront : s <+: ((s ++ t).take n).rdropWhile (· = '-') := by
    rw [htake]
    exact prefix_rdropWhile h.last_ne_hyphen
  have hback : ((s ++ t).take n).rdropWhile (· = '-') <+: s ++ t :=
    (List.rdropWhile_prefix _ _).trans (List.take_prefix n (s ++ t))
  have hchars : ∀ c ∈ ((s ++ t).take n).rdropWhile (· = '-'), labelChar c = true := by
    intro c hc
    rcases List.mem_append.mp (hback.subset hc) with hc | hc
    · exact h.chars c hc
    · exact ht c hc
  have hne : ((s ++ t).take n).rdropWhile (· = '-') ≠ [] := by
    intro hnil
    have hle := hfront.length_le
    have hpos := h.pos
    rw [hnil, List.length_nil] at hle
    omega
  constructor
  · exact h.pos.trans hfront.length_le
  · have hle := (List.rdropWhile_prefix (· = '-') ((s ++ t).take n)).length_le
    have htaken := List.length_take_le n (s ++ t)
    omega
  · exact hchars
  · obtain ⟨rest, hrest⟩ := hfront
    have hhead := h.head
    cases hfirst : s.head? with
    | none =>
      rw [hfirst] at hhead
      cases hhead
    | some c =>
      rw [← hrest, List.head?_append, hfirst]
      rw [hfirst] at hhead
      exact hhead
  · have hlast := List.rdropWhile_last_not (· = '-') _ hne
    rw [List.getLast?_eq_some_getLast hne, Option.any_some]
    refine edgeChar_of_labelChar (hchars _ (List.getLast_mem hne)) fun hhyphen => hlast ?_
    exact decide_eq_true hhyphen

end labels

end Fakery.Labels

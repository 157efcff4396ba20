import Mathlib.Data.List.AList
import Mathlib.Data.List.Infix

/-! Trees of files and directories, and the unpacking of the members of an archive into a tree that
may have files already. -/
namespace Fakery.Files

inductive Node (δ : Type) where
  | file (data : δ)
  | dir
deriving DecidableEq

/-- The nodes below a root, by the parts of their paths. -/
abbrev Tree (α δ : Type) := AList fun _ : List α => Node δ

abbrev Member (α δ : Type) := List α × Node δ

variable {α δ : Type} [DecidableEq α]

section code

/-- The directories above a path. -/
def parents (p : List α) : List (List α) := p.dropLast.inits.tail

/-- Directories are made where there is nothing yet. -/
def mkdirs (t : Tree α δ) : List (List α) → Option (Tree α δ)
  | [] => some t
  | q :: qs => match t.lookup q with
    | none => mkdirs (t.insert q .dir) qs
    | some .dir => mkdirs t qs
    | some (.file _) => none

/-- `none` is an error of the file system. -/
def extract (t : Tree α δ) : Member α δ → Option (Tree α δ)
  | (p, .dir) => mkdirs t (parents p ++ [p])
  | (p, .file data) => (mkdirs t (parents p)).bind fun t => match t.lookup p with
    | some .dir => none
    | _ => some (t.insert p (.file data))

def unpack (t : Tree α δ) (members : List (Member α δ)) : Option (Tree α δ) :=
  members.foldlM extract t

end code

/-- Below a file there is nothing, and above a node there are directories. -/
def Closed (t : Tree α δ) : Prop := ∀ p, t.lookup p ≠ none →
  p ≠ [] ∧ ∀ q, q <+: p → q ≠ [] → q ≠ p → t.lookup q = some .dir

/-- One of them is a file where the other one is a directory. -/
def Clash (s t : Tree α δ) (p : List α) : Prop :=
  ∃ data, s.lookup p = some (.file data) ∧ t.lookup p = some .dir ∨
    s.lookup p = some .dir ∧ t.lookup p = some (.file data)

/-- On the way to some member. -/
def Above (members : List (Member α δ)) (p : List α) : Prop :=
  p ≠ [] ∧ ∃ m ∈ members, p <+: m.1

variable {s t t' : Tree α δ} {p q : List α} {qs : List (List α)} {members : List (Member α δ)}

omit [DecidableEq α] in
theorem mem_inits_tail : q ∈ p.inits.tail ↔ q ≠ [] ∧ q <+: p := by
  cases p with
  | nil =>
    refine ⟨nofun, fun h => ?_⟩
    exact absurd (List.prefix_nil.mp h.2) h.1
  | cons a p =>
    rw [List.inits_cons, List.tail_cons, List.mem_map]
    constructor
    · rintro ⟨r, hr, rfl⟩
      exact ⟨List.cons_ne_nil _ _, List.cons_prefix_cons.mpr ⟨rfl, (List.mem_inits _ _).mp hr⟩⟩
    · rintro ⟨hne, habove⟩
      cases q with
      | nil => exact absurd rfl hne
      | cons b r =>
        obtain ⟨rfl, hr⟩ := List.cons_prefix_cons.mp habove
        exact ⟨r, (List.mem_inits _ _).mpr hr, rfl⟩

omit [DecidableEq α] in
theorem mem_parents : q ∈ parents p ↔ q ≠ [] ∧ q <+: p ∧ q ≠ p := by
  rw [parents, mem_inits_tail]
  rcases List.eq_nil_or_concat p with rfl | ⟨r, a, rfl⟩
  · exact and_congr_right fun hne => ⟨fun h => ⟨h, hne⟩, fun h => h.1⟩
  · rw [List.concat_eq_append, List.dropLast_concat]
    refine and_congr_right fun _ => ⟨fun h => ⟨h.trans (List.prefix_append _ _), ?_⟩, fun h => ?_⟩
    · rintro rfl
      have hlen := h.length_le
      rw [List.length_append] at hlen
      exact absurd hlen (Nat.not_succ_le_self _)
    · exact (List.prefix_concat_iff.mp h.1).resolve_left h.2

theorem mkdirs_some (h : ∀ q ∈ qs, ∀ data, t.lookup q ≠ some (.file data)) :
    ∃ t', mkdirs t qs = some t' ∧
      ∀ q, t'.lookup q = if q ∈ qs then some .dir else t.lookup q := by
  induction qs generalizing t with
  | nil => exact ⟨t, rfl, fun q => by simp⟩
  | cons p qs ih =>
    obtain ⟨hp, hqs⟩ := List.forall_mem_cons.mp h
    cases hlook : t.lookup p with
    | none =>
      have hrest : ∀ q ∈ qs, ∀ data, (t.insert p .dir).lookup q ≠ some (.file data) := by
        intro q hq data
        by_cases hqp : q = p
        · subst hqp
          rw [AList.lookup_insert]
          exact nofun
        · rw [AList.lookup_insert_ne hqp]
          exact hqs q hq data
      obtain ⟨t', hrun, ht'⟩ := ih hrest
      refine ⟨t', by rw [mkdirs, hlook]; exact hrun, fun q => ?_⟩
      rw [ht' q]
      by_cases hqp : q = p
      · subst hqp
        simp [AList.lookup_insert]
      · simp [AList.lookup_insert_ne hqp, hqp]
    | some node =>
      cases node with
      | file data => exact absurd hlook (hp data)
      | dir =>
        obtain ⟨t', hrun, ht'⟩ := ih hqs
        refine ⟨t', by rw [mkdirs, hlook]; exact hrun, fun q => ?_⟩
        rw [ht' q]
        by_cases hqp : q = p
        · subst hqp
          simp [hlook]
        · simp [hqp]

theorem mkdirs_none {data : δ} (hq : q ∈ qs) (h : t.lookup q = some (.file data)) :
    mkdirs t qs = none := by
  induction qs generalizing t with
  | nil => cases hq
  | cons p qs ih =>
    rw [mkdirs]
    cases hlook : t.lookup p with
    | none =>
      have hqp : q ≠ p := fun heq => by
        rw [heq, hlook] at h
        cases h
      exact ih ((List.mem_cons.mp hq).resolve_left hqp) (by rw [AList.lookup_insert_ne hqp, h])
    | some node =>
      cases node with
      | file _ => rfl
      | dir =>
        have hqp : q ≠ p := fun heq => by
          rw [heq, hlook] at h
          cases h
        exact ih ((List.mem_cons.mp hq).resolve_left hqp) h

/-- What `extract` does with a node of a tree `s`: the paths down to it are as in `s`, and all
others as they were. -/
def Overlaid (s t t' : Tree α δ) (p : List α) : Prop := ∀ q,
  (q ≠ [] → q <+: p → t'.lookup q = s.lookup q) ∧ (¬(q ≠ [] ∧ q <+: p) → t'.lookup q = t.lookup q)

theorem Closed.above (h : Closed s) {n : Node δ} (hp : s.lookup p = some n) (hq : q ∈ parents p) :
    s.lookup q = some .dir := by
  obtain ⟨hne, habove, hqp⟩ := mem_parents.mp hq
  exact (h p (by simp [hp])).2 q habove hne hqp

theorem prefix_iff (hp : p ≠ []) : q ≠ [] ∧ q <+: p ↔ q ∈ parents p ∨ q = p := by
  rw [mem_parents]
  by_cases hqp : q = p
  · subst hqp
    simp [hp]
  · simp [hqp]

theorem extract_some (hs : Closed s) {m : Member α δ} (hm : s.lookup m.1 = some m.2)
    (h : ∀ q, q ≠ [] → q <+: m.1 → ¬Clash s t q) :
    ∃ t', extract t m = some t' ∧ Overlaid s t t' m.1 := by
  obtain ⟨p, n⟩ := m
  dsimp only at hm h ⊢
  have hp : p ≠ [] := (hs p (by simp [hm])).1
  have hparents : ∀ q ∈ parents p, ∀ data, t.lookup q ≠ some (.file data) := by
    intro q hq data hfile
    obtain ⟨hne, habove⟩ := (prefix_iff hp).mpr (Or.inl hq)
    exact h q hne habove ⟨data, Or.inr ⟨hs.above hm hq, hfile⟩⟩
  cases n with
  | dir =>
    have hall : ∀ q ∈ parents p ++ [p], ∀ data, t.lookup q ≠ some (.file data) := by
      rw [List.forall_mem_append]
      refine ⟨hparents, fun q hq data hfile => ?_⟩
      obtain rfl := List.mem_singleton.mp hq
      exact h q hp List.prefix_rfl ⟨data, Or.inr ⟨hm, hfile⟩⟩
    obtain ⟨t', hrun, ht'⟩ := mkdirs_some hall
    refine ⟨t', hrun, fun q => ⟨fun hne habove => ?_, fun hq => ?_⟩⟩
    · have hq := (prefix_iff hp).mp ⟨hne, habove⟩
      rw [ht', if_pos (by simpa using hq)]
      rcases hq with hq | rfl
      · exact (hs.above hm hq).symm
      · exact hm.symm
    · rw [ht', if_neg (by simpa using mt (prefix_iff hp).mpr hq)]
  | file data =>
    obtain ⟨t₁, hrun, ht₁⟩ := mkdirs_some hparents
    have hself : p ∉ parents p := fun hself => (mem_parents.mp hself).2.2 rfl
    have hlook : t₁.lookup p = t.lookup p := by rw [ht₁, if_neg hself]
    have hdir : t₁.lookup p ≠ some .dir := by
      rw [hlook]
      exact fun hdir => h p hp List.prefix_rfl ⟨data, Or.inl ⟨hm, hdir⟩⟩
    have hput : extract t (p, .file data) = some (t₁.insert p (.file data)) := by
      simp only [extract, hrun, Option.bind_some]
    refine ⟨_, hput, fun q => ⟨fun hne habove => ?_, fun hq => ?_⟩⟩
    · rcases (prefix_iff hp).mp ⟨hne, habove⟩ with hq | rfl
      · rw [AList.lookup_insert_ne (mem_parents.mp hq).2.2, ht₁, if_pos hq]
        exact (hs.above hm hq).symm
      · rw [AList.lookup_insert, hm]
    · have hnot := mt (prefix_iff hp).mpr hq
      rw [not_or] at hnot
      rw [AList.lookup_insert_ne hnot.2, ht₁, if_neg hnot.1]

theorem extract_none (hs : Closed s) {m : Member α δ} (hm : s.lookup m.1 = some m.2)
    (hq : q ≠ []) (habove : q <+: m.1) (h : Clash s t q) : extract t m = none := by
  obtain ⟨p, n⟩ := m
  dsimp only at hm habove ⊢
  have hp : p ≠ [] := (hs p (by simp [hm])).1
  have hcase := (prefix_iff hp).mp ⟨hq, habove⟩
  obtain ⟨data, ⟨hfile, hdir⟩ | ⟨hdir, hfile⟩⟩ := h
  · -- Above the member there are directories, so that the file is the member.
    have hqp : q = p := hcase.resolve_left fun habove => by
      cases hfile.symm.trans (hs.above hm habove)
    subst hqp
    obtain rfl := Option.some.inj (hm.symm.trans hfile)
    by_cases hparents : ∀ r ∈ parents q, ∀ data, t.lookup r ≠ some (.file data)
    · obtain ⟨t₁, hrun, ht₁⟩ := mkdirs_some hparents
      have hself : q ∉ parents q := fun hself => (mem_parents.mp hself).2.2 rfl
      have hlook : t₁.lookup q = some .dir := by rw [ht₁, if_neg hself, hdir]
      simp only [extract, hrun, Option.bind_some, hlook]
    · push Not at hparents
      obtain ⟨r, hr, other, hother⟩ := hparents
      simp only [extract, mkdirs_none hr hother, Option.bind_none]
  · cases n with
    | dir => exact mkdirs_none (by simpa using hcase) hfile
    | file other =>
      have habove : q ∈ parents p := hcase.resolve_right fun heq => by
        subst heq
        cases hdir.symm.trans hm
      simp only [extract, mkdirs_none habove hfile, Option.bind_none]

/-- The members of a tree, unpacked over another one. -/
structure Merged (s t t' : Tree α δ) (members : List (Member α δ)) : Prop where
  within : ∀ p, Above members p → t'.lookup p = s.lookup p
  outside : ∀ p, ¬Above members p → t'.lookup p = t.lookup p

omit [DecidableEq α] in
theorem above_cons {m : Member α δ} :
    Above (m :: members) p ↔ p ≠ [] ∧ p <+: m.1 ∨ Above members p := by
  simp only [Above, List.exists_mem_cons_iff, ← and_or_left]

theorem Overlaid.clash (h : Overlaid s t t' p) (hclash : Clash s t' q) :
    Clash s t q ∧ ¬(q ≠ [] ∧ q <+: p) := by
  by_cases hq : q ≠ [] ∧ q <+: p
  · obtain ⟨data, ⟨hfile, hdir⟩ | ⟨hdir, hfile⟩⟩ := hclash
    · cases hfile.symm.trans (((h q).1 hq.1 hq.2).symm.trans hdir)
    · cases hdir.symm.trans (((h q).1 hq.1 hq.2).symm.trans hfile)
  · rw [Clash, (h q).2 hq] at hclash
    exact ⟨hclash, hq⟩

theorem closed_iff : Closed t ↔
    ∀ e ∈ t.entries, e.1 ≠ [] ∧ ∀ q ∈ parents e.1, t.lookup q = some .dir := by
  refine ⟨fun h e he => ?_, fun h p hp => ?_⟩
  · have hlook : t.lookup e.1 = some e.2 := AList.mem_lookup_iff.mpr he
    exact ⟨(h e.1 (by simp [hlook])).1, fun q hq => h.above hlook hq⟩
  · obtain ⟨n, hn⟩ := Option.ne_none_iff_exists'.mp hp
    obtain ⟨hne, hdirs⟩ := h ⟨p, n⟩ (AList.mem_lookup_iff.mp hn)
    exact ⟨hne, fun q hq hqne hqp => hdirs q (mem_parents.mpr ⟨hqne, hq, hqp⟩)⟩

instance [DecidableEq δ] : Decidable (Closed t) := decidable_of_iff _ closed_iff.symm

/-- Members of a tree can be unpacked over another one unless they clash with it. -/
theorem unpack_some (hs : Closed s) (hm : ∀ m ∈ members, s.lookup m.1 = some m.2)
    (h : ∀ p, Above members p → ¬Clash s t p) :
    ∃ t', unpack t members = some t' ∧ Merged s t t' members := by
  induction members generalizing t with
  | nil => exact ⟨t, rfl, fun p ⟨_, m, hm, _⟩ => (by cases hm), fun _ _ => rfl⟩
  | cons m members ih =>
    obtain ⟨hhead, hrest⟩ := List.forall_mem_cons.mp hm
    obtain ⟨t₁, hextract, ht₁⟩ := extract_some hs hhead fun q hne habove =>
      h q (above_cons.mpr (Or.inl ⟨hne, habove⟩))
    obtain ⟨t', hunpack, hmerged⟩ := ih hrest fun q hq hclash =>
      h q (above_cons.mpr (Or.inr hq)) (ht₁.clash hclash).1
    refine ⟨t', ?_, fun p hp => ?_, fun p hp => ?_⟩
    · rw [unpack, List.foldlM_cons, hextract]
      exact hunpack
    · by_cases hlater : Above members p
      · exact hmerged.within p hlater
      · obtain ⟨hne, habove⟩ := (above_cons.mp hp).resolve_right hlater
        rw [hmerged.outside p hlater, (ht₁ p).1 hne habove]
    · obtain ⟨hnot, hlater⟩ := not_or.mp (mt above_cons.mpr hp)
      rw [hmerged.outside p hlater, (ht₁ p).2 hnot]

theorem unpack_none (hs : Closed s) (hm : ∀ m ∈ members, s.lookup m.1 = some m.2)
    (hp : Above members p) (h : Clash s t p) : unpack t members = none := by
  induction members generalizing t with
  | nil =>
    obtain ⟨_, m, hm, _⟩ := hp
    cases hm
  | cons m members ih =>
    obtain ⟨hhead, hrest⟩ := List.forall_mem_cons.mp hm
    rw [unpack, List.foldlM_cons]
    by_cases hfirst : p ≠ [] ∧ p <+: m.1
    · rw [extract_none hs hhead hfirst.1 hfirst.2 h]
      rfl
    · cases hextract : extract t m with
      | none => rfl
      | some t₁ =>
        have hclear : ∀ q, q ≠ [] → q <+: m.1 → ¬Clash s t q := fun q hne habove hclash => by
          cases hextract.symm.trans (extract_none hs hhead hne habove hclash)
        obtain ⟨t₂, hsame, ht₂⟩ := extract_some hs hhead hclear
        obtain rfl := Option.some.inj (hextract.symm.trans hsame)
        refine ih hrest ((above_cons.mp hp).resolve_left hfirst) ?_
        rw [Clash, (ht₂ p).2 hfirst]
        exact h

/-- What is unpacked of a closed tree over a closed one is closed. -/
theorem Merged.closed (hs : Closed s) (ht : Closed t)
    (hm : ∀ m ∈ members, s.lookup m.1 = some m.2) (hclear : ∀ p, Above members p → ¬Clash s t p)
    (h : Merged s t t' members) : Closed t' := by
  have hin : ∀ p, Above members p → s.lookup p ≠ none := by
    rintro p ⟨hne, m, hmem, habove⟩
    by_cases hp : p = m.1
    · rw [hp, hm m hmem]
      exact nofun
    · rw [(hs m.1 (by simp [hm m hmem])).2 p habove hne hp]
      exact nofun
  intro p hp
  by_cases habove : Above members p
  · rw [h.within p habove] at hp
    obtain ⟨hne, hdirs⟩ := hs p hp
    obtain ⟨-, m, hmem, habove⟩ := habove
    refine ⟨hne, fun q hq hqne hqp => ?_⟩
    rw [h.within q ⟨hqne, m, hmem, hq.trans habove⟩]
    exact hdirs q hq hqne hqp
  · rw [h.outside p habove] at hp
    obtain ⟨hne, hdirs⟩ := ht p hp
    refine ⟨hne, fun q hq hqne hqp => ?_⟩
    have hdir := hdirs q hq hqne hqp
    by_cases hqabove : Above members q
    · rw [h.within q hqabove]
      cases hlook : s.lookup q with
      | none => exact absurd hlook (hin q hqabove)
      | some node =>
        cases node with
        | dir => rfl
        | file data => exact absurd ⟨data, Or.inl ⟨hlook, hdir⟩⟩ (hclear q hqabove)
    · rw [h.outside q hqabove]
      exact hdir

end Fakery.Files

import Fakery.Texts.Strings
import Mathlib.Data.List.Sort
import Mathlib.Data.List.Nodup
import Mathlib.Tactic.SplitIfs

/-! JSON values, and the order of the keys of an object. Numbers with a fraction or an exponent,
NaN and the infinities are left out, and so is a text with half of a surrogate pair. -/
namespace Fakery.Json
open Fakery.Texts

inductive Value where
  | null
  | bool (b : Bool)
  | int (n : ℤ)
  | str (s : Text)
  | arr (items : List Value)
  | obj (fields : List (Text × Value))

abbrev Field := Text × Value

mutual

/-- No object of a value has a key twice: the value is one that a dict can hold. -/
def Value.Distinct : Value → Prop
  | .arr items => ItemsDistinct items
  | .obj fields => (fields.map Prod.fst).Nodup ∧ FieldsDistinct fields
  | .null | .bool _ | .int _ | .str _ => True

def ItemsDistinct : List Value → Prop
  | [] => True
  | v :: vs => v.Distinct ∧ ItemsDistinct vs

def FieldsDistinct : List Field → Prop
  | [] => True
  | (_, v) :: fields => v.Distinct ∧ FieldsDistinct fields

end

/-- `fields[key] = v` for a dict that keeps the order in which its keys came. -/
def setItem (fields : List Field) (key : Text) (v : Value) : List Field :=
  match fields with
  | [] => [(key, v)]
  | field :: fields =>
    if field.1 = key then (key, v) :: fields else field :: setItem fields key v

/-- `dict(pairs)` -/
def dict (pairs : List Field) : List Field :=
  pairs.foldl (fun fields pair => setItem fields pair.1 pair.2) []

/-- `fields.get(key)` -/
def get? (key : Text) : List Field → Option Value
  | [] => none
  | field :: fields => if field.1 = key then some field.2 else get? key fields

/-- Texts are compared by code points. -/
def textLe : Text → Text → Bool
  | [], _ => true
  | _ :: _, [] => false
  | a :: as, b :: bs => if a = b then textLe as bs else decide (a.toNat < b.toNat)

def fieldLe (a b : Field) : Prop := textLe a.1 b.1 = true

instance : DecidableRel fieldLe := fun a b => inferInstanceAs (Decidable (textLe a.1 b.1 = true))

mutual

/-- `sort_keys=True` -/
def Value.sortKeys : Value → Value
  | .arr items => .arr (sortItems items)
  | .obj fields => .obj ((sortFields fields).insertionSort fieldLe)
  | .null => .null
  | .bool b => .bool b
  | .int n => .int n
  | .str s => .str s

def sortItems : List Value → List Value
  | [] => []
  | v :: vs => v.sortKeys :: sortItems vs

def sortFields : List Field → List Field
  | [] => []
  | (key, v) :: fields => (key, v.sortKeys) :: sortFields fields

end

mutual

/-- `==` on values, but that `True` and `1` are told apart: two objects are the same if they have
as many keys and each key of one leads to the same value in the other. -/
def Value.Same : Value → Value → Prop
  | .arr items, w => ∃ items', w = .arr items' ∧ ItemsSame items items'
  | .obj fields, w => ∃ fields', w = .obj fields' ∧ fields.length = fields'.length ∧
      FieldsSame fields fields'
  | .null, w => w = .null
  | .bool b, w => w = .bool b
  | .int n, w => w = .int n
  | .str s, w => w = .str s

def ItemsSame : List Value → List Value → Prop
  | [], ws => ws = []
  | v :: vs, ws => ∃ w ws', ws = w :: ws' ∧ v.Same w ∧ ItemsSame vs ws'

def FieldsSame : List Field → List Field → Prop
  | [], _ => True
  | (key, v) :: fields, others => (∃ w, get? key others = some w ∧ v.Same w) ∧
      FieldsSame fields others

end

section order

variable {s t u : Text} {a b : Field} {fields : List Field}

theorem textLe_total (s t : Text) : textLe s t = true ∨ textLe t s = true := by
  induction s generalizing t with
  | nil => exact Or.inl rfl
  | cons a s ih =>
    cases t with
    | nil => exact Or.inr rfl
    | cons b t =>
      by_cases hab : a = b
      · subst hab
        simpa [textLe] using ih t
      · have hne : a.toNat ≠ b.toNat := fun h => hab (Char.toNat_inj.mp h)
        simp only [textLe, if_neg hab, if_neg (Ne.symm hab), decide_eq_true_eq]
        omega

theorem textLe_antisymm (hst : textLe s t = true) (hts : textLe t s = true) : s = t := by
  induction s generalizing t with
  | nil =>
    cases t with
    | nil => rfl
    | cons b t => cases hts
  | cons a s ih =>
    cases t with
    | nil => cases hst
    | cons b t =>
      by_cases hab : a = b
      · subst hab
        simp only [textLe, if_true] at hst hts
        rw [ih hst hts]
      · simp only [textLe, if_neg hab, if_neg (Ne.symm hab), decide_eq_true_eq] at hst hts
        omega

theorem textLe_trans (hst : textLe s t = true) (htu : textLe t u = true) :
    textLe s u = true := by
  induction s generalizing t u with
  | nil => rfl
  | cons a s ih =>
    cases t with
    | nil => cases hst
    | cons b t =>
      cases u with
      | nil => cases htu
      | cons c u =>
        by_cases hab : a = b
        · subst hab
          by_cases hac : a = c
          · subst hac
            simp only [textLe, if_true] at hst htu ⊢
            exact ih hst htu
          · simpa only [textLe, if_neg hac] using htu
        · by_cases hbc : b = c
          · subst hbc
            simpa only [textLe, if_neg hab] using hst
          · simp only [textLe, if_neg hab, if_neg hbc, decide_eq_true_eq] at hst htu
            have hac : a ≠ c := by
              rintro rfl
              omega
            simp only [textLe, if_neg hac, decide_eq_true_eq]
            omega

instance : Std.Total fieldLe := ⟨fun a b => textLe_total a.1 b.1⟩

instance : IsTrans Field fieldLe := ⟨fun _ _ _ => textLe_trans⟩

/-- Two sorted lists of the same fields are equal where no key comes twice. -/
theorem eq_of_sorted {gs : List Field} (hperm : fields.Perm gs)
    (hkeys : (fields.map Prod.fst).Nodup) (hf : fields.Pairwise fieldLe)
    (hg : gs.Pairwise fieldLe) : fields = gs := by
  refine hperm.eq_of_pairwise (fun a b ha hb hab hba => ?_) hf hg
  have hb' : b ∈ fields := hperm.symm.subset hb
  exact List.inj_on_of_nodup_map hkeys ha hb' (textLe_antisymm hab hba)

end order

section dicts

variable {fields : List Field} {key other : Text} {v w : Value}

theorem get?_eq_some (h : (fields.map Prod.fst).Nodup) :
    get? key fields = some v ↔ (key, v) ∈ fields := by
  induction fields with
  | nil => simp [get?]
  | cons field fields ih =>
    obtain ⟨hfresh, hrest⟩ := List.nodup_cons.mp h
    simp only [get?, List.mem_cons]
    split_ifs with hkey
    · subst hkey
      have hout : (field.1, v) ∉ fields := fun hmem => hfresh (List.mem_map.mpr ⟨_, hmem, rfl⟩)
      constructor
      · intro hv
        left
        rw [← Option.some.inj hv]
      · rintro (heq | hmem)
        · rw [← heq]
        · exact absurd hmem hout
    · rw [ih hrest]
      constructor
      · exact Or.inr
      · rintro (heq | hmem)
        · exact absurd (congrArg Prod.fst heq).symm hkey
        · exact hmem

theorem setItem_fresh (h : key ∉ fields.map Prod.fst) :
    setItem fields key v = fields ++ [(key, v)] := by
  induction fields with
  | nil => rfl
  | cons field fields ih =>
    simp only [List.map_cons, List.mem_cons, not_or] at h
    rw [setItem, if_neg (Ne.symm h.1), ih h.2, List.cons_append]

/-- A dict of pairs whose keys differ has these pairs. -/
theorem dict_of_nodup (h : (fields.map Prod.fst).Nodup) : dict fields = fields := by
  have hfold : ∀ pairs start : List Field, ((start ++ pairs).map Prod.fst).Nodup →
      pairs.foldl (fun fields pair => setItem fields pair.1 pair.2) start = start ++ pairs := by
    intro pairs
    induction pairs with
    | nil => exact fun start _ => (List.append_nil start).symm
    | cons pair pairs ih =>
      intro start hn
      have hassoc : start ++ pair :: pairs = (start ++ [pair]) ++ pairs := by simp
      have hfresh : pair.1 ∉ start.map Prod.fst := by
        intro hmem
        rw [List.map_append, List.map_cons] at hn
        exact (List.nodup_append.mp hn).2.2 _ hmem _ List.mem_cons_self rfl
      rw [List.foldl_cons, setItem_fresh hfresh, hassoc]
      exact ih (start ++ [pair]) (hassoc ▸ hn)
  exact hfold fields [] h

end dicts

section sorting

variable {fields : List Field} {key : Text} {v w : Value}

theorem map_fst_sortFields : (sortFields fields).map Prod.fst = fields.map Prod.fst := by
  induction fields with
  | nil => rfl
  | cons field fields ih => simp only [sortFields, List.map_cons, ih]

theorem length_sortFields : (sortFields fields).length = fields.length := by
  have hkeys : ((sortFields fields).map Prod.fst).length = (fields.map Prod.fst).length :=
    congrArg List.length map_fst_sortFields
  simpa using hkeys

theorem mem_sortFields : (key, w) ∈ sortFields fields ↔
    ∃ v, (key, v) ∈ fields ∧ v.sortKeys = w := by
  induction fields with
  | nil => simp [sortFields]
  | cons field fields ih =>
    obtain ⟨k, u⟩ := field
    simp only [sortFields, List.mem_cons, Prod.mk.injEq, ih]
    constructor
    · rintro (⟨rfl, rfl⟩ | ⟨v, hv, rfl⟩)
      · exact ⟨u, Or.inl ⟨rfl, rfl⟩, rfl⟩
      · exact ⟨v, Or.inr hv, rfl⟩
    · rintro ⟨v, ⟨rfl, rfl⟩ | hv, rfl⟩
      · exact Or.inl ⟨rfl, rfl⟩
      · exact Or.inr ⟨v, hv, rfl⟩

theorem fieldsDistinct_iff : FieldsDistinct fields ↔ ∀ field ∈ fields, field.2.Distinct := by
  induction fields with
  | nil => simp [FieldsDistinct]
  | cons field fields ih => simp only [FieldsDistinct, ih, List.forall_mem_cons]

theorem nodup_sorted (h : (fields.map Prod.fst).Nodup) :
    (((sortFields fields).insertionSort fieldLe).map Prod.fst).Nodup := by
  have hperm := (List.perm_insertionSort fieldLe (sortFields fields)).map Prod.fst
  rw [hperm.nodup_iff, map_fst_sortFields]
  exact h

/-- A key leads to the same value after the sorting, with its own keys in order. -/
theorem get?_sorted (h : (fields.map Prod.fst).Nodup) (key : Text) :
    get? key ((sortFields fields).insertionSort fieldLe) =
      (get? key fields).map Value.sortKeys := by
  apply Option.ext
  intro v
  rw [get?_eq_some (nodup_sorted h), List.mem_insertionSort, mem_sortFields, Option.map_eq_some_iff]
  simp only [get?_eq_some h]

mutual

theorem distinct_sortKeys : ∀ {v : Value}, v.Distinct → v.sortKeys.Distinct
  | .null, _ | .bool _, _ | .int _, _ | .str _, _ => trivial
  | .arr _, h => by
    rw [Value.sortKeys, Value.Distinct]
    rw [Value.Distinct] at h
    exact itemsDistinct_sortItems h
  | .obj fields, h => by
    rw [Value.sortKeys, Value.Distinct]
    rw [Value.Distinct] at h
    refine ⟨nodup_sorted h.1, fieldsDistinct_iff.mpr fun field hmem => ?_⟩
    rw [List.mem_insertionSort] at hmem
    exact fieldsDistinct_iff.mp (fieldsDistinct_sortFields h.2) field hmem

theorem itemsDistinct_sortItems : ∀ {vs : List Value}, ItemsDistinct vs →
    ItemsDistinct (sortItems vs)
  | [], _ => trivial
  | _ :: _, h => ⟨distinct_sortKeys h.1, itemsDistinct_sortItems h.2⟩

theorem fieldsDistinct_sortFields : ∀ {fields : List Field}, FieldsDistinct fields →
    FieldsDistinct (sortFields fields)
  | [], _ => trivial
  | (_, _) :: _, h => ⟨distinct_sortKeys h.1, fieldsDistinct_sortFields h.2⟩

end

theorem sortFields_eq_self (h : ∀ field ∈ fields, field.2.sortKeys = field.2) :
    sortFields fields = fields := by
  induction fields with
  | nil => rfl
  | cons field fields ih =>
    obtain ⟨hhead, hrest⟩ := List.forall_mem_cons.mp h
    rw [sortFields, hhead, ih hrest]

mutual

theorem sortKeys_idem : ∀ v : Value, v.sortKeys.sortKeys = v.sortKeys
  | .null | .bool _ | .int _ | .str _ => rfl
  | .arr items => by rw [Value.sortKeys, Value.sortKeys, sortItems_idem items]
  | .obj fields => by
    have hfixed : ∀ field ∈ (sortFields fields).insertionSort fieldLe,
        field.2.sortKeys = field.2 := fun field hmem =>
      sortFields_fixed fields field ((List.mem_insertionSort fieldLe).mp hmem)
    rw [Value.sortKeys, Value.sortKeys, sortFields_eq_self hfixed,
      (List.pairwise_insertionSort fieldLe _).insertionSort_eq]

theorem sortItems_idem : ∀ vs : List Value, sortItems (sortItems vs) = sortItems vs
  | [] => rfl
  | v :: vs => by rw [sortItems, sortItems, sortKeys_idem v, sortItems_idem vs]

theorem sortFields_fixed : ∀ (fields : List Field), ∀ field ∈ sortFields fields,
    field.2.sortKeys = field.2
  | [], _, h => by cases h
  | (key, v) :: fields, field, h => by
    rcases List.mem_cons.mp h with rfl | h
    · exact sortKeys_idem v
    · exact sortFields_fixed fields field h

end

end sorting

section same

variable {fields others : List Field} {v w : Value}

/-- The fields of two dicts with the same keys and values, whatever their order. -/
theorem sorted_eq_iff (hf : (fields.map Prod.fst).Nodup) (ho : (others.map Prod.fst).Nodup) :
    (sortFields fields).insertionSort fieldLe = (sortFields others).insertionSort fieldLe ↔
      fields.length = others.length ∧
        ∀ key v, (key, v) ∈ fields → ∃ w, get? key others = some w ∧ v.sortKeys = w.sortKeys := by
  have hpf := List.perm_insertionSort fieldLe (sortFields fields)
  have hpo := List.perm_insertionSort fieldLe (sortFields others)
  constructor
  · intro heq
    have hperm : (sortFields fields).Perm (sortFields others) := (heq ▸ hpf).symm.trans hpo
    refine ⟨?_, fun key v hmem => ?_⟩
    · rw [← length_sortFields, hperm.length_eq, length_sortFields]
    · have hmem' := hperm.subset (mem_sortFields.mpr ⟨v, hmem, rfl⟩)
      obtain ⟨w, hw, hsame⟩ := mem_sortFields.mp hmem'
      exact ⟨w, (get?_eq_some ho).mpr hw, hsame.symm⟩
  · rintro ⟨hlen, hall⟩
    have hsub : sortFields fields ⊆ sortFields others := by
      rintro ⟨key, u⟩ hmem
      obtain ⟨v, hv, rfl⟩ := mem_sortFields.mp hmem
      obtain ⟨w, hw, hsame⟩ := hall key v hv
      exact mem_sortFields.mpr ⟨w, (get?_eq_some ho).mp hw, hsame.symm⟩
    have hnodup : (sortFields fields).Nodup := List.Nodup.of_map Prod.fst (by
      rw [map_fst_sortFields]
      exact hf)
    have hperm : (sortFields fields).Perm (sortFields others) := by
      refine (List.subperm_of_subset hnodup hsub).perm_of_length_le ?_
      rw [length_sortFields, length_sortFields, hlen]
    exact eq_of_sorted (hpf.trans (hperm.trans hpo.symm)) (nodup_sorted hf)
      (List.pairwise_insertionSort fieldLe _) (List.pairwise_insertionSort fieldLe _)

mutual

/-- Sorting the keys is a canonical form. -/
theorem same_iff : ∀ {v w : Value}, v.Distinct → w.Distinct →
    (v.Same w ↔ v.sortKeys = w.sortKeys)
  | .null, w, _, _ => by
    cases w <;> simp [Value.Same, Value.sortKeys]
  | .bool b, w, _, _ => by
    cases w <;> simp [Value.Same, Value.sortKeys, eq_comm]
  | .int n, w, _, _ => by
    cases w <;> simp [Value.Same, Value.sortKeys, eq_comm]
  | .str s, w, _, _ => by
    cases w <;> simp [Value.Same, Value.sortKeys, eq_comm]
  | .arr items, w, hv, hw => by
    rw [Value.Distinct] at hv
    cases w with
    | arr items' =>
      rw [Value.Distinct] at hw
      simp only [Value.Same, Value.sortKeys, Value.arr.injEq, exists_eq_left',
        itemsSame_iff hv hw]
    | _ => simp [Value.Same, Value.sortKeys]
  | .obj fields, w, hv, hw => by
    rw [Value.Distinct] at hv
    cases w with
    | obj others =>
      rw [Value.Distinct] at hw
      simp only [Value.Same, Value.sortKeys, Value.obj.injEq, exists_eq_left',
        sorted_eq_iff hv.1 hw.1]
      rw [fieldsSame_iff hv.2 hw.1 hw.2]
    | _ => simp [Value.Same, Value.sortKeys]

theorem itemsSame_iff : ∀ {vs ws : List Value}, ItemsDistinct vs → ItemsDistinct ws →
    (ItemsSame vs ws ↔ sortItems vs = sortItems ws)
  | [], ws, _, _ => by
    cases ws <;> simp [ItemsSame, sortItems]
  | v :: vs, ws, hv, hw => by
    cases ws with
    | nil => simp [ItemsSame, sortItems]
    | cons w ws =>
      have hhead := same_iff hv.1 hw.1
      have htail := itemsSame_iff hv.2 hw.2
      simp only [ItemsSame, sortItems, List.cons.injEq]
      constructor
      · rintro ⟨w', ws', ⟨rfl, rfl⟩, hsame, hrest⟩
        exact ⟨hhead.mp hsame, htail.mp hrest⟩
      · rintro ⟨hsame, hrest⟩
        exact ⟨w, ws, ⟨rfl, rfl⟩, hhead.mpr hsame, htail.mpr hrest⟩

theorem fieldsSame_iff : ∀ {fields others : List Field}, FieldsDistinct fields →
    (others.map Prod.fst).Nodup → FieldsDistinct others →
    (FieldsSame fields others ↔ ∀ key v, (key, v) ∈ fields →
      ∃ w, get? key others = some w ∧ v.sortKeys = w.sortKeys)
  | [], _, _, _, _ => by simp [FieldsSame]
  | (k, u) :: fields, others, hf, hn, ho => by
    have hrest := fieldsSame_iff hf.2 hn ho
    have hhead : ∀ w, get? k others = some w → (u.Same w ↔ u.sortKeys = w.sortKeys) := by
      intro w hw
      have hmem := (get?_eq_some hn).mp hw
      exact same_iff hf.1 (fieldsDistinct_iff.mp ho _ hmem)
    simp only [FieldsSame, hrest]
    constructor
    · rintro ⟨⟨w, hw, hsame⟩, hall⟩ key v hmem
      rcases List.mem_cons.mp hmem with heq | hmem
      · cases heq
        exact ⟨w, hw, (hhead w hw).mp hsame⟩
      · exact hall key v hmem
    · intro hall
      obtain ⟨w, hw, hsame⟩ := hall k u List.mem_cons_self
      exact ⟨⟨w, hw, (hhead w hw).mpr hsame⟩,
        fun key v hmem => hall key v (List.mem_cons_of_mem _ hmem)⟩

end

theorem same_sortKeys (h : v.Distinct) : v.Same v.sortKeys :=
  (same_iff h (distinct_sortKeys h)).mpr (sortKeys_idem v).symm

end same

end Fakery.Json

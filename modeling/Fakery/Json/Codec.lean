import Fakery.Json.Tokens

/-! Values as texts and texts as values. A text that is written from a value with its keys in
order gives this value back, whatever follows it, so two values are written alike only if they
are the same. -/
namespace Fakery.Json
open Fakery.Texts

section write

mutual

def Value.print : Value → Text
  | .null => ['n', 'u', 'l', 'l']
  | .bool true => ['t', 'r', 'u', 'e']
  | .bool false => ['f', 'a', 'l', 's', 'e']
  | .int n => intText n
  | .str s => quote s
  | .arr [] => ['[', ']']
  | .arr (v :: vs) => '[' :: (v.print ++ printItems vs)
  | .obj [] => ['{', '}']
  | .obj ((key, v) :: fields) =>
    '{' :: (quote key ++ ':' :: ' ' :: (v.print ++ printFields fields))

/-- What follows an item. -/
def printItems : List Value → Text
  | [] => [']']
  | v :: vs => ',' :: ' ' :: (v.print ++ printItems vs)

/-- What follows a field. -/
def printFields : List Field → Text
  | [] => ['}']
  | (key, v) :: fields =>
    ',' :: ' ' :: (quote key ++ ':' :: ' ' :: (v.print ++ printFields fields))

end

/-- `json.dumps(v, sort_keys=True)` -/
def dumps (v : Value) : Text := v.sortKeys.print

end write

section read

def space (c : Char) : Bool := c = ' ' || c = '\t' || c = '\n' || c = '\r'

def skip (s : Text) : Text := s.dropWhile space

/-- What follows a character that may have white space before it. -/
def expect (d : Char) (s : Text) : Option Text :=
  match skip s with
  | [] => none
  | c :: s => if c = d then some s else none

def literal (word : Text) (v : Value) (s : Text) : Option (Value × Text) :=
  if word.isPrefixOf s then some (v, s.drop word.length) else none

mutual

/-- The value at the front of a text, and what follows it. A number that goes on with a fraction
or an exponent ends before it, where nothing that may follow a value begins. -/
def parseValue : ℕ → Text → Option (Value × Text)
  | 0, _ | _ + 1, [] => none
  | fuel + 1, c :: s =>
    if c = '"' then (scanString fuel s).map fun (text, s) => (.str text, s)
    else if c = '{' then
      match expect '}' s with
      | some s => some (.obj [], s)
      | none => do
        let (field, s) ← parseField fuel s
        let (fields, s) ← parseFields fuel s
        some (.obj (dict (field :: fields)), s)
    else if c = '[' then
      match expect ']' s with
      | some s => some (.arr [], s)
      | none => do
        let (v, s) ← parseValue fuel (skip s)
        let (vs, s) ← parseItems fuel s
        some (.arr (v :: vs), s)
    else if c = 'n' then literal ['u', 'l', 'l'] .null s
    else if c = 't' then literal ['r', 'u', 'e'] (.bool true) s
    else if c = 'f' then literal ['a', 'l', 's', 'e'] (.bool false) s
    else (readInt (c :: s)).map fun (n, s) => (.int n, s)

/-- What follows an item of an array. -/
def parseItems : ℕ → Text → Option (List Value × Text)
  | 0, _ => none
  | fuel + 1, s =>
    match expect ']' s with
    | some s => some ([], s)
    | none => do
      let s ← expect ',' s
      let (v, s) ← parseValue fuel (skip s)
      let (vs, s) ← parseItems fuel s
      some (v :: vs, s)

def parseField : ℕ → Text → Option (Field × Text)
  | 0, _ => none
  | fuel + 1, s => do
    let s ← expect '"' s
    let (key, s) ← scanString fuel s
    let s ← expect ':' s
    let (v, s) ← parseValue fuel (skip s)
    some ((key, v), s)

/-- What follows a field of an object. -/
def parseFields : ℕ → Text → Option (List Field × Text)
  | 0, _ => none
  | fuel + 1, s =>
    match expect '}' s with
    | some s => some ([], s)
    | none => do
      let s ← expect ',' s
      let (field, s) ← parseField fuel s
      let (fields, s) ← parseFields fuel s
      some (field :: fields, s)

end

/-- `json.loads`, where `none` is the error. -/
def loads (s : Text) : Option Value := do
  let (v, s) ← parseValue s.length (skip s)
  if skip s = [] then some v else none

end read

section print

variable {s t : Text} {v : Value} {c : Char} {n : ℤ}

/-- The characters that a value starts with. -/
def startChar (c : Char) : Bool :=
  c = 'n' || c = 't' || c = 'f' || c = '"' || c = '[' || c = '{' || c = '-' || c.isDigit

theorem start_intText (n : ℤ) : ∃ c t, intText n = c :: t ∧ (c = '-' ∨ c.isDigit = true) := by
  cases n with
  | ofNat n =>
    rcases hds : Nat.toDigits 10 n with - | ⟨d, ds⟩
    · exact absurd hds Nat.toDigits_ne_nil
    · have hd : d ∈ Nat.toDigits 10 n := hds ▸ List.mem_cons_self
      exact ⟨d, ds, hds, Or.inr (isDigit_toDigits d hd)⟩
  | negSucc n => exact ⟨'-', _, rfl, Or.inl rfl⟩

theorem start_print (v : Value) : ∃ c t, v.print = c :: t ∧ startChar c = true := by
  cases v with
  | null => exact ⟨_, _, rfl, rfl⟩
  | bool b => cases b <;> exact ⟨_, _, rfl, rfl⟩
  | int n =>
    obtain ⟨c, t, heq, hc⟩ := start_intText n
    refine ⟨c, t, heq, ?_⟩
    rcases hc with rfl | hc
    · rfl
    · simp [startChar, hc]
  | str s => exact ⟨_, _, rfl, rfl⟩
  | arr items =>
    cases items with
    | nil => exact ⟨_, _, rfl, rfl⟩
    | cons v vs => exact ⟨_, _, rfl, rfl⟩
  | obj fields =>
    cases fields with
    | nil => exact ⟨_, _, rfl, rfl⟩
    | cons field fields => exact ⟨_, _, rfl, rfl⟩

/-- A character that no value starts with. -/
theorem ne_of_start {d : Char} (h : startChar c = true) (hd : startChar d = false) : c ≠ d := by
  rintro rfl
  exact Bool.false_ne_true (hd.symm.trans h)

theorem not_space_of_start (h : startChar c = true) : space c = false := by
  simp only [space, Bool.or_eq_false_iff, decide_eq_false_iff_not]
  exact ⟨⟨⟨ne_of_start h rfl, ne_of_start h rfl⟩, ne_of_start h rfl⟩, ne_of_start h rfl⟩

theorem skip_of_not_space (h : space c = false) : skip (c :: s) = c :: s := by
  rw [skip, List.dropWhile_cons_of_neg]
  simp [h]

theorem skip_print (v : Value) (s : Text) : skip (v.print ++ s) = v.print ++ s := by
  obtain ⟨c, t, heq, hc⟩ := start_print v
  rw [heq, List.cons_append]
  exact skip_of_not_space (not_space_of_start hc)

/-- Before an item of an array or an object stands no bracket that closes it. -/
theorem expect_of_ne {d : Char} (hspace : space c = false) (hne : c ≠ d) :
    expect d (c :: s) = none := by
  rw [expect, skip_of_not_space hspace]
  exact if_neg hne

theorem expect_same {d : Char} (hspace : space d = false) : expect d (d :: s) = some s := by
  rw [expect, skip_of_not_space hspace]
  exact if_pos rfl

theorem expect_print {d : Char} (v : Value) (s : Text) (hd : startChar d = false) :
    expect d (v.print ++ s) = none := by
  obtain ⟨c, t, heq, hc⟩ := start_print v
  rw [heq, List.cons_append]
  exact expect_of_ne (not_space_of_start hc) (ne_of_start hc hd)

theorem expect_space (d : Char) (s : Text) : expect d (' ' :: s) = expect d s := rfl

theorem delimited_cons (h : c.isDigit = false) : Delimited (c :: s) := by
  simp [Delimited, h]

theorem delimited_printItems (vs : List Value) (s : Text) : Delimited (printItems vs ++ s) := by
  cases vs with
  | nil => exact delimited_cons rfl
  | cons v vs => exact delimited_cons rfl

theorem delimited_printFields (fields : List Field) (s : Text) :
    Delimited (printFields fields ++ s) := by
  cases fields with
  | nil => exact delimited_cons rfl
  | cons field fields => exact delimited_cons rfl

end print

section roundTrip

variable {fuel : ℕ} {s : Text}

theorem parseValue_int (n : ℤ) (h : Delimited s) (hfuel : 0 < fuel) :
    parseValue fuel (intText n ++ s) = some (.int n, s) := by
  obtain ⟨fuel, rfl⟩ := Nat.exists_eq_succ_of_ne_zero (Nat.ne_of_gt hfuel)
  have hread := readInt_intText n h
  obtain ⟨c, t, heq, hc⟩ := start_intText n
  have hne : ∀ d : Char, d ≠ '-' → d.isDigit = false → c ≠ d := by
    rintro d hminus hdigit rfl
    rcases hc with rfl | hc
    · exact hminus rfl
    · exact Bool.false_ne_true (hdigit.symm.trans hc)
  rw [heq, List.cons_append] at hread ⊢
  rw [Nat.succ_eq_add_one, parseValue, if_neg (hne _ (by decide) rfl),
    if_neg (hne _ (by decide) rfl), if_neg (hne _ (by decide) rfl), if_neg (hne _ (by decide) rfl),
    if_neg (hne _ (by decide) rfl), if_neg (hne _ (by decide) rfl), hread]
  rfl

theorem parseValue_quote (text s : Text) (hfuel : (quote text).length ≤ fuel) :
    parseValue fuel (quote text ++ s) = some (.str text, s) := by
  have hlen := length_le_escape text
  simp only [quote, List.length_cons, List.length_append] at hfuel
  obtain ⟨fuel, rfl⟩ := Nat.exists_eq_succ_of_ne_zero (n := fuel) (by omega)
  have hshort : text.length < fuel := by omega
  have hscan := scanString_escape (t := s) hshort
  rw [Nat.succ_eq_add_one, quote, List.cons_append, List.append_assoc, parseValue, if_pos rfl]
  rw [List.cons_append, List.nil_append, hscan]
  rfl

theorem literal_append (word : Text) (v : Value) (s : Text) :
    literal word v (word ++ s) = some (v, s) := by
  rw [literal, if_pos (List.isPrefixOf_iff_prefix.mpr (List.prefix_append word s)),
    List.drop_left]

theorem print_length_pos (v : Value) : 0 < v.print.length := by
  obtain ⟨c, t, heq, -⟩ := start_print v
  rw [heq]
  exact Nat.succ_pos _

/-- A key and its value, from what is known of the value. -/
theorem parseField_print {key : Text} {v : Value}
    (hv : parseValue fuel (v.print ++ s) = some (v, s)) (hkey : key.length < fuel) :
    parseField (fuel + 1) (quote key ++ ':' :: ' ' :: (v.print ++ s)) = some ((key, v), s) := by
  have hscan := scanString_escape (t := ':' :: ' ' :: (v.print ++ s)) hkey
  have hskip : skip (' ' :: (v.print ++ s)) = v.print ++ s := skip_print v s
  rw [parseField, quote, List.cons_append, List.append_assoc, expect_same rfl]
  simp only [Option.bind_eq_bind, Option.bind_some, List.cons_append, List.nil_append, hscan,
    expect_same (d := ':') rfl, hskip, hv]

mutual

/-- A value is read back as it was written, whatever follows it. -/
theorem parseValue_print : ∀ {v : Value} {fuel : ℕ} {s : Text}, v.Distinct →
    v.print.length ≤ fuel → Delimited s → parseValue fuel (v.print ++ s) = some (v, s)
  | .null, fuel + 1, s, _, _, _ => literal_append ['u', 'l', 'l'] .null s
  | .bool true, fuel + 1, s, _, _, _ => literal_append ['r', 'u', 'e'] (.bool true) s
  | .bool false, fuel + 1, s, _, _, _ => literal_append ['a', 'l', 's', 'e'] (.bool false) s
  | .int n, fuel, s, _, hfuel, hs =>
    parseValue_int n hs (Nat.lt_of_lt_of_le (print_length_pos (.int n)) hfuel)
  | .str text, fuel, s, _, hfuel, _ => parseValue_quote text s hfuel
  | .arr [], fuel + 1, s, _, _, _ => rfl
  | .arr (v :: vs), fuel + 1, s, hd, hfuel, hs => by
    rw [Value.Distinct, ItemsDistinct] at hd
    simp only [Value.print, List.length_cons, List.length_append] at hfuel
    have hhead : v.print.length ≤ fuel := by omega
    have hrest : (printItems vs).length ≤ fuel := by omega
    have hitems := parseItems_print (s := s) hd.2 hrest
    have hv := parseValue_print hd.1 hhead (delimited_printItems vs s)
    have hne : ¬ '[' = '"' ∧ ¬ '[' = '{' := by decide
    simp only [Value.print, List.cons_append, List.append_assoc]
    rw [parseValue, if_neg hne.1, if_neg hne.2, if_pos rfl, expect_print v _ rfl]
    simp only [Option.bind_eq_bind, skip_print, hv, Option.bind_some, hitems]
  | .obj [], fuel + 1, s, _, _, _ => rfl
  | .obj ((key, v) :: fields), fuel + 1, s, hd, hfuel, hs => by
    rw [Value.Distinct, FieldsDistinct] at hd
    have hkey := length_le_escape key
    simp only [Value.print, quote, List.length_cons, List.length_append] at hfuel
    have hrest : (printFields fields).length ≤ fuel := by omega
    have hfields := parseFields_print (s := s) hd.2.2 hrest
    obtain ⟨fuel, rfl⟩ := Nat.exists_eq_succ_of_ne_zero (n := fuel) (by omega)
    have hhead : v.print.length ≤ fuel := by omega
    have hshort : key.length < fuel := by omega
    have hv := parseValue_print hd.2.1 hhead (delimited_printFields fields s)
    have hfield := parseField_print hv hshort
    have hne : ¬ '{' = '"' := by decide
    have hclose : ∀ t, expect '}' (quote key ++ t) = none := fun t =>
      expect_of_ne rfl (by decide)
    simp only [Value.print, List.cons_append, List.append_assoc]
    rw [parseValue, if_neg hne, if_pos rfl, hclose]
    simp only [Option.bind_eq_bind, Nat.succ_eq_add_one, hfield, Option.bind_some] at hfields ⊢
    rw [hfields, Option.bind_some, dict_of_nodup hd.1]

theorem parseItems_print : ∀ {vs : List Value} {fuel : ℕ} {s : Text}, ItemsDistinct vs →
    (printItems vs).length ≤ fuel → parseItems fuel (printItems vs ++ s) = some (vs, s)
  | [], fuel + 1, s, _, _ => rfl
  | v :: vs, fuel + 1, s, hd, hfuel => by
    simp only [printItems, List.length_cons, List.length_append] at hfuel
    have hhead : v.print.length ≤ fuel := by omega
    have hrest : (printItems vs).length ≤ fuel := by omega
    have hitems := parseItems_print (s := s) hd.2 hrest
    have hv := parseValue_print hd.1 hhead (delimited_printItems vs s)
    have hskip : skip (' ' :: (v.print ++ (printItems vs ++ s))) = v.print ++ (printItems vs ++ s) :=
      skip_print v _
    simp only [printItems, List.cons_append, List.append_assoc]
    rw [parseItems, expect_of_ne rfl (by decide)]
    simp only [Option.bind_eq_bind, expect_same (d := ',') rfl, Option.bind_some, hskip, hv, hitems]

theorem parseFields_print : ∀ {fields : List Field} {fuel : ℕ} {s : Text},
    FieldsDistinct fields → (printFields fields).length ≤ fuel →
    parseFields fuel (printFields fields ++ s) = some (fields, s)
  | [], fuel + 1, s, _, _ => rfl
  | (key, v) :: fields, fuel + 1, s, hd, hfuel => by
    have hkey := length_le_escape key
    simp only [printFields, quote, List.length_cons, List.length_append] at hfuel
    have hrest : (printFields fields).length ≤ fuel := by omega
    have hfields := parseFields_print (s := s) hd.2 hrest
    obtain ⟨fuel, rfl⟩ := Nat.exists_eq_succ_of_ne_zero (n := fuel) (by omega)
    have hhead : v.print.length ≤ fuel := by omega
    have hshort : key.length < fuel := by omega
    have hv := parseValue_print hd.1 hhead (delimited_printFields fields s)
    have hfield := parseField_print hv hshort
    have hspace : ∀ t, parseField (fuel + 1) (' ' :: t) = parseField (fuel + 1) t := fun t => by
      rw [parseField, parseField, expect_space]
    simp only [printFields, List.cons_append, List.append_assoc]
    rw [parseFields, expect_of_ne rfl (by decide)]
    simp only [Nat.succ_eq_add_one, Option.bind_eq_bind, expect_same (d := ',') rfl,
      Option.bind_some, hspace, hfield] at hfields ⊢
    rw [hfields, Option.bind_some]

end

end roundTrip

section canonical

variable {v w : Value}

theorem loads_print (h : v.Distinct) : loads v.print = some v := by
  have hread := parseValue_print (s := []) h le_rfl rfl
  rw [List.append_nil] at hread
  have hskip := skip_print v []
  rw [List.append_nil] at hskip
  simp only [loads, hskip, hread, Option.bind_eq_bind, Option.bind_some]
  rfl

/-- What is written is read back with its keys in order. -/
theorem loads_dumps (h : v.Distinct) : loads (dumps v) = some v.sortKeys :=
  loads_print (distinct_sortKeys h)

/-- Two values are written alike if and only if they are the same. -/
theorem dumps_eq_iff (hv : v.Distinct) (hw : w.Distinct) : dumps v = dumps w ↔ v.Same w := by
  rw [same_iff hv hw]
  constructor
  · intro heq
    have hsorted := loads_dumps hv
    rw [heq, loads_dumps hw] at hsorted
    exact (Option.some.inj hsorted).symm
  · intro heq
    rw [dumps, dumps, heq]

end canonical

end Fakery.Json

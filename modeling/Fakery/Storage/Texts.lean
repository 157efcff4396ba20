import Fakery.Meetings.Canonical
import Fakery.Storage.Blob
import Fakery.Texts.Strings
import Mathlib.Data.List.Infix

/-! Keys and URIs as texts. The places that take a key apart, each in its own way, agree on what it
is the key of. -/
namespace Fakery.Storage
open Fakery.Texts

def plainChar (c : Char) : Bool := c.isAlphanum || c = '_' || c = '-' || c = '.'

/-- The texts that stand for the numbers of bots. An id has no full stop. -/
structure BotNames where
  text : ℕ → Text
  injective : Function.Injective text
  plain : ∀ bot, ∀ c ∈ text bot, (c.isAlphanum || c = '_') = true
  pos : ∀ bot, text bot ≠ []

/-- Names by decimal numbers. -/
def BotNames.decimal : BotNames where
  text n := 'b' :: Nat.toDigits 10 n
  injective m n h := by
    rw [← Nat.ofDigitChars_ten_toDigits (n := m), (List.cons.inj h).2,
      Nat.ofDigitChars_ten_toDigits]
  plain n c hc := by
    rcases List.mem_cons.mp hc with rfl | hc
    · decide
    · simp [Char.isAlphanum, Nat.isDigit_of_mem_toDigits (by decide) (by decide) hc]
  pos n := List.cons_ne_nil _ _

/-- The name of a bucket, with the characters that the store allows. -/
structure Bucket where
  name : Text
  plain : ∀ c ∈ name, plainChar c = true

def RECORDINGS_PREFIX : Text := "recordings/".toList

def CHECKPOINTS : Text := "/checkpoints/".toList

def MANIFEST : Text := "manifest.json".toList

def WEBM : Text := ".webm".toList

section keys

variable (names : BotNames)

/-- `f"recordings/{botId}/checkpoints/{sequence:08d}.webm"` -/
def chunkKey (botId : Text) (sequence : ℕ) : Text :=
  RECORDINGS_PREFIX ++ (botId ++ (CHECKPOINTS ++ (pad 8 sequence ++ WEBM)))

/-- `f"recordings/{botId}/checkpoints/manifest.json"` -/
def manifestKey (botId : Text) : Text := RECORDINGS_PREFIX ++ (botId ++ (CHECKPOINTS ++ MANIFEST))

/-- `f"recordings/{botId}.webm"` -/
def recordingKey (botId : Text) : Text := RECORDINGS_PREFIX ++ (botId ++ WEBM)

def Key.bot : Key → ℕ
  | .recording bot => bot
  | .chunk bot _ => bot
  | .manifest bot => bot

def keyText : Key → Text
  | .recording bot => recordingKey (names.text bot)
  | .chunk bot sequence => chunkKey (names.text bot) sequence
  | .manifest bot => manifestKey (names.text bot)

end keys

section uris

/-- `f"s3://{self._bucket}/{key}"` -/
def uriText (bucket key : Text) : Text := "s3://".toList ++ bucket ++ '/' :: key

def lstrip (c : Char) (s : Text) : Text := s.dropWhile (· = c)

/-- `_key_from_uri`, where `none` is the error of an authority that is not valid. -/
def keyFromUri (admits : Text → Bool) (uri : Text) : Option Text :=
  (Meetings.urlsplit admits uri).map fun parsed =>
    if parsed.scheme ≠ [] then lstrip '/' parsed.path else lstrip '/' uri

/-- `run.recording_uri.split("/", 3)[-1]` -/
def recordingUriKey (uri : Text) : Text := ((split '/' 3 uri).getLast?).getD []

def botIdFromKey (key : Text) : Option Text :=
  let relative := removeprefix RECORDINGS_PREFIX key
  if relative = [] then none
  else
    let botId := removesuffix WEBM (((split '/' 1 relative).head?).getD [])
    if botId = [] then none else some botId

/-- `"/checkpoints/" in key` -/
def inCheckpoints (key : Text) : Bool := key.tails.any (CHECKPOINTS.isPrefixOf ·)

/-- `key.endswith("manifest.json")` -/
def isManifest (key : Text) : Bool := MANIFEST.isSuffixOf key

end uris

section characters

variable {c : Char} {s t : Text}

/-- The characters of a key. -/
def keyChar (c : Char) : Bool := plainChar c || c = '/'

theorem isDigit_bounds (h : c.isDigit = true) : 48 ≤ c.toNat ∧ c.toNat ≤ 57 := by
  simpa [Char.isDigit, UInt32.le_iff_toNat_le] using h

theorem plainChar_bounds (h : plainChar c = true) : (45 ≤ c.toNat ∧ c.toNat ≤ 46) ∨
    (48 ≤ c.toNat ∧ c.toNat ≤ 57) ∨ (65 ≤ c.toNat ∧ c.toNat ≤ 90) ∨ c.toNat = 95 ∨
      (97 ≤ c.toNat ∧ c.toNat ≤ 122) := by
  have heq : ∀ d : Char, c = d ↔ c.toNat = d.toNat := fun d => Char.toNat_inj.symm
  simp only [plainChar, Char.isAlphanum, Bool.or_eq_true, decide_eq_true_eq, Meetings.isAlpha_iff,
    Meetings.isUpper_iff, Meetings.isLower_iff, heq] at h
  rcases h with (((h | h) | h) | h) | h
  · rcases h with h | h
    · omega
    · omega
  · have hdigit := isDigit_bounds h
    omega
  · simp at h
    omega
  · simp at h
    omega
  · simp at h
    omega

theorem plainChar_of_name (h : (c.isAlphanum || c = '_') = true) : plainChar c = true := by
  simp only [plainChar, Bool.or_eq_true, decide_eq_true_eq] at h ⊢
  exact Or.inl (Or.inl h)

/-- A character outside the range is none of a key. -/
theorem keyChar_bounds (h : keyChar c = true) : (45 ≤ c.toNat ∧ c.toNat ≤ 57) ∨
    (65 ≤ c.toNat ∧ c.toNat ≤ 90) ∨ c.toNat = 95 ∨ (97 ≤ c.toNat ∧ c.toNat ≤ 122) := by
  rcases Bool.or_eq_true_iff.mp h with hplain | hslash
  · have hbounds := plainChar_bounds hplain
    omega
  · rw [of_decide_eq_true hslash]
    decide

theorem not_mem_of_bounds {P : Char → Prop} {d : Char} (hs : ∀ c ∈ s, P c)
    (hd : ¬P d) : d ∉ s := fun hmem => hd (hs d hmem)

theorem keyChar_append (hs : ∀ c ∈ s, keyChar c = true) (ht : ∀ c ∈ t, keyChar c = true) :
    ∀ c ∈ s ++ t, keyChar c = true := by
  intro c hc
  rcases List.mem_append.mp hc with hc | hc
  · exact hs c hc
  · exact ht c hc

variable (names : BotNames)

theorem keyChar_name (bot : ℕ) : ∀ c ∈ names.text bot, keyChar c = true := fun c hc =>
  Bool.or_eq_true_iff.mpr (Or.inl (plainChar_of_name (names.plain bot c hc)))

theorem plainChar_pad (w n : ℕ) : ∀ c ∈ pad w n, plainChar c = true := by
  intro c hc
  have hdigit := isDigit_pad w n c hc
  simp [plainChar, Char.isAlphanum, hdigit]

theorem keyChar_keyText (key : Key) : ∀ c ∈ keyText names key, keyChar c = true := by
  have hfront : ∀ c ∈ RECORDINGS_PREFIX, keyChar c = true := List.all_eq_true.mp (by decide)
  have hdir : ∀ c ∈ CHECKPOINTS, keyChar c = true := List.all_eq_true.mp (by decide)
  have hmanifest : ∀ c ∈ MANIFEST, keyChar c = true := List.all_eq_true.mp (by decide)
  have hwebm : ∀ c ∈ WEBM, keyChar c = true := List.all_eq_true.mp (by decide)
  have hpad : ∀ n, ∀ c ∈ pad 8 n, keyChar c = true := fun n c hc =>
    Bool.or_eq_true_iff.mpr (Or.inl (plainChar_pad 8 n c hc))
  cases key with
  | recording bot =>
    exact keyChar_append hfront (keyChar_append (keyChar_name names bot) hwebm)
  | chunk bot sequence =>
    exact keyChar_append hfront (keyChar_append (keyChar_name names bot)
      (keyChar_append hdir (keyChar_append (hpad sequence) hwebm)))
  | manifest bot =>
    exact keyChar_append hfront (keyChar_append (keyChar_name names bot)
      (keyChar_append hdir hmanifest))

end characters

section uris

variable (names : BotNames) (admits : Text → Bool) (bucket : Bucket) (key : Key)

theorem keyText_cons : ∃ rest, keyText names key = 'r' :: rest := by
  have hfront : RECORDINGS_PREFIX = 'r' :: "ecordings/".toList := by decide
  cases key <;> exact ⟨_, congrArg (· ++ _) hfront⟩

theorem unsafeChar_of_keyChar {c : Char} (h : keyChar c = true) :
    Meetings.unsafeChar c = false := by
  have hbounds := keyChar_bounds h
  have hne : ∀ d : Char, d.toNat < 45 → c ≠ d := by
    rintro d hd rfl
    omega
  simp only [Meetings.unsafeChar, Bool.or_eq_false_iff, decide_eq_false_iff_not]
  exact ⟨⟨hne _ (by decide), hne _ (by decide)⟩, hne _ (by decide)⟩

theorem not_delimiter_of_plainChar {c : Char} (h : plainChar c = true) :
    (!Meetings.delimiter c) = true := by
  have hbounds := plainChar_bounds h
  have hne : ∀ d : Char, d.toNat = 47 ∨ d.toNat = 63 ∨ d.toNat = 35 → c ≠ d := by
    rintro d hd rfl
    omega
  simp only [Meetings.delimiter, Bool.not_eq_true', Bool.or_eq_false_iff, decide_eq_false_iff_not]
  exact ⟨⟨hne _ (by decide), hne _ (by decide)⟩, hne _ (by decide)⟩

theorem plainNetloc_bucket : Meetings.plainNetloc bucket.name = true := by
  apply List.all_eq_true.mpr
  intro c hc
  have hbounds := plainChar_bounds (bucket.plain c hc)
  have hne : ∀ d : Char, d.toNat = 91 ∨ d.toNat = 93 → c ≠ d := by
    rintro d hd rfl
    omega
  have hlt : c.val < 128 := UInt32.lt_iff_toNat_lt.mpr (show c.toNat < 128 by omega)
  simp only [Bool.and_eq_true, decide_eq_true_eq]
  exact ⟨⟨hne _ (by decide), hne _ (by decide)⟩, hlt⟩

/-- The URI of a plain path in a bucket, split. -/
theorem urlsplit_uriText {path : Text} (hpath : ∀ c ∈ path, keyChar c = true) :
    Meetings.urlsplit admits (uriText bucket.name path) = some ⟨"s3".toList, bucket.name,
      '/' :: path, [], []⟩ := by
  have hbucket : ∀ c ∈ bucket.name, keyChar c = true := fun c hc =>
    Bool.or_eq_true_iff.mpr (Or.inl (bucket.plain c hc))
  have hrest : ∀ c ∈ bucket.name ++ '/' :: path, keyChar c = true :=
    keyChar_append hbucket (List.forall_mem_cons.mpr ⟨by decide, hpath⟩)
  have hkept : (uriText bucket.name path).filter (!Meetings.unsafeChar ·) =
      uriText bucket.name path := by
    apply List.filter_eq_self.mpr
    intro c hc
    rw [uriText, List.append_assoc, List.mem_append] at hc
    rcases hc with hc | hc
    · have hnone : ∀ d ∈ "s3://".toList, (!Meetings.unsafeChar d) = true :=
        List.all_eq_true.mp (by decide)
      exact hnone c hc
    · rw [unsafeChar_of_keyChar (hrest c hc)]
      rfl
  have hscheme : Meetings.splitScheme (uriText bucket.name path) =
      ("s3".toList, '/' :: '/' :: (bucket.name ++ '/' :: path)) := by
    have hmem : ':' ∈ uriText bucket.name path := by
      rw [uriText, List.append_assoc]
      exact List.mem_append_left _ (by decide)
    rw [Meetings.splitScheme, if_pos ⟨hmem, rfl, rfl⟩]
    have hafter : Meetings.after ':' (uriText bucket.name path) =
        '/' :: '/' :: (bucket.name ++ '/' :: path) := by
      rw [uriText, List.append_assoc]
      rfl
    rw [hafter]
    rfl
  have hdelim : ∀ c ∈ bucket.name, (!Meetings.delimiter c) = true := fun c hc =>
    not_delimiter_of_plainChar (bucket.plain c hc)
  have hnetloc : Meetings.splitNetloc ('/' :: '/' :: (bucket.name ++ '/' :: path)) =
      (bucket.name, '/' :: path) := by
    rw [Meetings.splitNetloc, List.takeWhile_append_of_pos hdelim,
      List.dropWhile_append_of_pos hdelim, List.takeWhile_cons_of_neg (by decide),
      List.dropWhile_cons_of_neg (by decide), List.append_nil]
  have hslash : ∀ c ∈ '/' :: path, keyChar c = true :=
    List.forall_mem_cons.mpr ⟨by decide, hpath⟩
  have hhash : '#' ∉ '/' :: path := not_mem_of_bounds hslash (by decide)
  have hquery : '?' ∉ '/' :: path := not_mem_of_bounds hslash (by decide)
  have hfront : (uriText bucket.name path).dropWhile (· ≤ ' ') = uriText bucket.name path := rfl
  have hcheck : Meetings.checkNetloc admits bucket.name = true := by
    rw [Meetings.checkNetloc, plainNetloc_bucket, Bool.true_or]
  have hnone : ∀ c : Char, c ∉ '/' :: path → Meetings.after c ('/' :: path) = [] := by
    intro c hc
    rw [Meetings.after, Meetings.dropWhile_of_not_mem hc]
    rfl
  simp only [Meetings.urlsplit, hfront, hkept, hscheme, hnetloc, hcheck, if_true,
    Meetings.before_of_not_mem hhash, Meetings.before_of_not_mem hquery, hnone _ hhash,
    hnone _ hquery]

/-- A key is cut out of the URI as it is, whatever is said of authorities that are not plain. -/
theorem keyFromUri_uriText : keyFromUri admits (uriText bucket.name (keyText names key)) =
    some (keyText names key) := by
  obtain ⟨rest, hrest⟩ := keyText_cons names key
  have hne : "s3".toList ≠ [] := by decide
  rw [keyFromUri, urlsplit_uriText admits bucket (keyChar_keyText names key), Option.map_some,
    if_pos hne, hrest]
  rfl

theorem recordingUriKey_uriText : recordingUriKey (uriText bucket.name (keyText names key)) =
    keyText names key := by
  have hslash : '/' ∉ bucket.name := not_mem_of_bounds bucket.plain (by decide)
  have hsplit : split '/' 3 (uriText bucket.name (keyText names key)) =
      ["s3:".toList, [], bucket.name, keyText names key] := by
    have hshape : uriText bucket.name (keyText names key) =
        "s3:".toList ++ '/' :: ([] ++ '/' :: (bucket.name ++ '/' :: keyText names key)) := by
      rw [uriText, List.append_assoc]
      rfl
    rw [hshape, split_cons 2 (by decide), split_cons 1 List.not_mem_nil, split_cons 0 hslash]
    rfl
  rw [recordingUriKey, hsplit]
  rfl

end uris

section owners

variable (names : BotNames) (key : Key)

theorem slash_not_mem_name (bot : ℕ) : '/' ∉ names.text bot :=
  not_mem_of_bounds (names.plain bot) (by decide)

theorem dot_not_mem_name (bot : ℕ) : '.' ∉ names.text bot :=
  not_mem_of_bounds (names.plain bot) (by decide)

theorem webm_not_suffix (bot : ℕ) : ¬WEBM <:+ names.text bot := fun h =>
  dot_not_mem_name names bot (h.subset (by decide))

theorem botIdFromKey_of_parts {relative : Text} {bot : ℕ}
    (h : relative = names.text bot ++ WEBM ∨ ∃ rest, relative = names.text bot ++ '/' :: rest) :
    botIdFromKey (RECORDINGS_PREFIX ++ relative) = some (names.text bot) := by
  have hpos := names.pos bot
  have hne : relative ≠ [] := by
    rcases h with rfl | ⟨rest, rfl⟩ <;> simp [hpos]
  rw [botIdFromKey, removeprefix_append]
  simp only [if_neg hne]
  rcases h with rfl | ⟨rest, rfl⟩
  · have hslash : '/' ∉ names.text bot ++ WEBM := by
      rw [List.mem_append, not_or]
      exact ⟨slash_not_mem_name names bot, by decide⟩
    rw [split_of_not_mem 1 hslash, List.head?_cons, Option.getD_some, removesuffix_append,
      if_neg hpos]
  · rw [split_cons 0 (slash_not_mem_name names bot), List.head?_cons, Option.getD_some,
      removesuffix_of_not (webm_not_suffix names bot), if_neg hpos]

theorem checkpoints_cons : CHECKPOINTS = '/' :: "checkpoints/".toList := by decide

/-- Every key of a bot leads back to it. -/
theorem botIdFromKey_keyText : botIdFromKey (keyText names key) = some (names.text key.bot) := by
  cases key with
  | recording bot => exact botIdFromKey_of_parts names (Or.inl rfl)
  | chunk bot sequence =>
    apply botIdFromKey_of_parts names
    rw [checkpoints_cons]
    exact Or.inr ⟨_, rfl⟩
  | manifest bot =>
    apply botIdFromKey_of_parts names
    rw [checkpoints_cons]
    exact Or.inr ⟨_, rfl⟩

/-- The objects that a retention sweep takes for checkpoints. -/
theorem inCheckpoints_keyText : inCheckpoints (keyText names key) = true ↔
    ∀ bot, key ≠ .recording bot := by
  have hwithin : inCheckpoints (keyText names key) = true ↔ CHECKPOINTS <:+: keyText names key := by
    simp only [inCheckpoints, List.any_eq_true, List.mem_tails, List.isPrefixOf_iff_prefix,
      List.infix_iff_prefix_suffix]
    exact ⟨fun ⟨t, hs, hp⟩ => ⟨t, hp, hs⟩, fun ⟨t, hp, hs⟩ => ⟨t, hs, hp⟩⟩
  rw [hwithin]
  cases key with
  | recording bot =>
    refine ⟨fun h => absurd ?_ (by decide : ¬2 ≤ 1), fun h => absurd rfl (h bot)⟩
    -- The key of a recording has one slash, and the pattern has two.
    have hcount := h.sublist.count_le '/'
    have hname : (names.text bot).count '/' = 0 :=
      List.count_eq_zero_of_not_mem (slash_not_mem_name names bot)
    have hkey : (keyText names (.recording bot)).count '/' = 1 := by
      have hfront : RECORDINGS_PREFIX.count '/' = 1 := by decide
      have hwebm : WEBM.count '/' = 0 := by decide
      rw [keyText, recordingKey, List.count_append, List.count_append, hname, hfront, hwebm]
    have hpattern : CHECKPOINTS.count '/' = 2 := by decide
    rw [hkey, hpattern] at hcount
    exact hcount
  | chunk bot sequence =>
    refine ⟨fun _ _ h => (by cases h), fun _ => ?_⟩
    exact ⟨RECORDINGS_PREFIX ++ names.text bot, pad 8 sequence ++ WEBM, by
      simp [keyText, chunkKey, List.append_assoc]⟩
  | manifest bot =>
    refine ⟨fun _ _ h => (by cases h), fun _ => ?_⟩
    exact ⟨RECORDINGS_PREFIX ++ names.text bot, MANIFEST, by
      simp [keyText, manifestKey, List.append_assoc]⟩

theorem isManifest_keyText : isManifest (keyText names key) = true ↔
    ∃ bot, key = .manifest bot := by
  have hlast : ∀ s : Text, isManifest (s ++ WEBM) = false := by
    intro s
    rw [Bool.eq_false_iff]
    intro h
    have hsuffix := List.isSuffixOf_iff_suffix.mp h
    obtain ⟨t, ht⟩ := hsuffix
    have hend := congrArg List.getLast? ht
    have hn : MANIFEST.getLast? = some 'n' := by decide
    have hm : WEBM.getLast? = some 'm' := by decide
    rw [List.getLast?_append, List.getLast?_append, hn, hm] at hend
    exact absurd (Option.some.inj hend) (by decide)
  cases key with
  | recording bot =>
    have hno : isManifest (keyText names (.recording bot)) = false := by
      rw [keyText, recordingKey, ← List.append_assoc]
      exact hlast _
    simp [hno]
  | chunk bot sequence =>
    have hno : isManifest (keyText names (.chunk bot sequence)) = false := by
      rw [keyText, chunkKey, ← List.append_assoc, ← List.append_assoc, ← List.append_assoc]
      exact hlast _
    simp [hno]
  | manifest bot =>
    have hyes : isManifest (keyText names (.manifest bot)) = true := by
      rw [keyText, manifestKey, ← List.append_assoc, ← List.append_assoc]
      exact List.isSuffixOf_iff_suffix.mpr (List.suffix_append _ _)
    simp [hyes]

/-- No two keys have one text. -/
theorem keyText_injective : Function.Injective (keyText names) := by
  have hbot : ∀ key other : Key, keyText names key = keyText names other → key.bot = other.bot := by
    intro key other h
    have howner := botIdFromKey_keyText names key
    rw [h, botIdFromKey_keyText] at howner
    exact (names.injective (Option.some.inj howner)).symm
  intro key other h
  have hb := hbot key other h
  have hdir := inCheckpoints_keyText names key
  have hman := isManifest_keyText names key
  rw [h, inCheckpoints_keyText] at hdir
  rw [h, isManifest_keyText] at hman
  cases key with
  | recording bot =>
    cases other with
    | recording bot' => exact congrArg _ hb
    | chunk bot' n => exact absurd rfl (hdir.mp (fun _ hc => by cases hc) bot)
    | manifest bot' => exact absurd rfl (hdir.mp (fun _ hc => by cases hc) bot)
  | chunk bot n =>
    cases other with
    | recording bot' => exact absurd rfl (hdir.mpr (fun _ hc => by cases hc) bot')
    | chunk bot' m =>
      have hbots : bot = bot' := hb
      subst hbots
      have htail := List.append_cancel_left (List.append_cancel_left (List.append_cancel_left h))
      rw [pad_injective 8 (List.append_cancel_right htail)]
    | manifest bot' =>
      obtain ⟨_, hc⟩ := hman.mp ⟨_, rfl⟩
      cases hc
  | manifest bot =>
    cases other with
    | recording bot' => exact absurd rfl (hdir.mpr (fun _ hc => by cases hc) bot')
    | chunk bot' n =>
      obtain ⟨_, hc⟩ := hman.mpr ⟨_, rfl⟩
      cases hc
    | manifest bot' => exact congrArg _ hb

end owners

end Fakery.Storage

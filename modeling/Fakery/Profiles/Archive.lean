import Fakery.Files.Tree
import Fakery.Texts.Strings
import Mathlib.Data.List.Lex
import Mathlib.Data.Char
import Mathlib.Order.Lex

/-! What is stored of a browser profile, and what another directory gets of it. A directory is taken
as its files and directories; links, special files and the times, modes and owners of its nodes are
left out. -/
namespace Fakery.Profiles
open Fakery.Files Fakery.Texts

abbrev Bytes := List UInt8

/-- A directory, by the parts of relative paths. -/
abbrev Directory := Tree Text Bytes

def PACK_EXCLUDE_DIRS : List Text :=
  ["Cache".toList, "Code Cache".toList, "Crashpad".toList, "Service Worker".toList]

def PACK_EXCLUDE_FILES : List Text :=
  ["SingletonLock".toList, "SingletonCookie".toList, "SingletonSocket".toList, "LOCK".toList]

def PACK_EXCLUDE_SUFFIXES : List Text := [".log".toList]

section code

/-- `_excluded` -/
def excluded (path : List Text) : Bool :=
  let name := path.getLast?.getD []
  if PACK_EXCLUDE_FILES.contains name || PACK_EXCLUDE_SUFFIXES.any (·.isSuffixOf name) then true
  else path.dropLast.any PACK_EXCLUDE_DIRS.contains

/-- `sorted(source.rglob("*"))` -/
def rglob (source : Directory) : List (Member Text Bytes) :=
  (source.entries.map fun e => (e.1, e.2)).mergeSort fun a b => decide (a.1 ≤ b.1)

def packed (source : Directory) : List (Member Text Bytes) :=
  (rglob source).filter fun m => !excluded m.1

/-- `tar` writes an archive of members and `untar` reads it; `encrypt` and `decrypt` raise for a key
that is none. What else comes into the bytes is an `Info`: the time, the times, modes and owners of
the members, and where a token starts at random, so that no two archives of one directory need be
the same bytes, and no two tokens of one archive. -/
structure Codec (Info : Type) where
  tar : Info → List (Member Text Bytes) → Bytes
  untar : Bytes → Option (List (Member Text Bytes))
  encrypt : Info → Text → Bytes → Option Bytes
  decrypt : Text → Bytes → Option Bytes

variable {Info : Type} (K : Codec Info)

def sealed (info : Info) (data : Bytes) : Option Text → Option Bytes
  | none => some data
  | some key => if key = [] then some data else K.encrypt info key data

def unsealed (data : Bytes) : Option Text → Option Bytes
  | none => some data
  | some key => if key = [] then some data else K.decrypt key data

def packProfile (info : Info) (source : Directory) : Bytes := K.tar info (packed source)

def unpackProfile (data : Bytes) (dest : Directory) : Option Directory :=
  (K.untar data).bind (unpack dest)

/-- What `_persist_profile` stores of a directory. -/
def persisted (info : Info) (source : Directory) (key : Option Text) : Option Bytes :=
  sealed K info (packProfile K info source) key

/-- What `_restore_profile` makes of a directory. -/
def restored (data : Bytes) (dest : Directory) (key : Option Text) : Option Directory :=
  (unsealed K data key).bind fun plain => unpackProfile K plain dest

end code

/-- A directory as the file system has it. -/
structure Profile where
  tree : Directory
  closed : Closed tree

section packing

variable {source : Directory} {m : Member Text Bytes}

theorem mem_packed : m ∈ packed source ↔ source.lookup m.1 = some m.2 ∧ excluded m.1 = false := by
  rw [packed, List.mem_filter, rglob, List.mem_mergeSort, List.mem_map, Bool.not_eq_true']
  refine and_congr_left fun _ => ⟨?_, fun h => ⟨⟨m.1, m.2⟩, AList.mem_lookup_iff.mp h, rfl⟩⟩
  rintro ⟨e, he, rfl⟩
  exact AList.mem_lookup_iff.mpr he

theorem nodup_packed (source : Directory) : (packed source).Nodup := by
  refine List.Nodup.filter _ ((List.mergeSort_perm _ _).nodup_iff.mpr ?_)
  refine List.Nodup.of_map Prod.fst ?_
  rw [List.map_map]
  exact source.nodupKeys

theorem pairwise_packed (source : Directory) :
    (packed source).Pairwise fun a b => a.1 ≤ b.1 := by
  refine List.Pairwise.filter _ (List.Pairwise.imp (fun h => of_decide_eq_true h)
    (List.pairwise_mergeSort (fun a b c hab hbc => ?_) (fun a b => ?_) _))
  · exact decide_eq_true (le_trans (of_decide_eq_true hab) (of_decide_eq_true hbc))
  · simpa using le_total a.1 b.1

end packing

section restoring

variable {source dest t : Directory} {p : List Text}

/-- The nodes that an archive brings about. -/
def Kept (source : Directory) (p : List Text) : Prop := Above (packed source) p

theorem lookup_of_packed : ∀ m ∈ packed source, source.lookup m.1 = some m.2 :=
  fun _ hm => (mem_packed.mp hm).1

theorem kept_of_packed (hs : Closed source) {m : Member Text Bytes} (hm : m ∈ packed source) :
    Kept source m.1 := by
  have hne : source.lookup m.1 ≠ none := by simp [lookup_of_packed m hm]
  exact ⟨(hs m.1 hne).1, m, hm, List.prefix_rfl⟩

/-- Of what is excluded only directories are kept, for what is below them. -/
theorem Kept.dir (hs : Closed source) (hp : Kept source p) (hx : excluded p = true) :
    source.lookup p = some .dir := by
  obtain ⟨hne, m, hm, hprefix⟩ := hp
  obtain ⟨hlook, hkeep⟩ := mem_packed.mp hm
  have hpm : p ≠ m.1 := fun heq => by
    rw [← heq, hx] at hkeep
    cases hkeep
  exact (hs m.1 (by simp [hlook])).2 p hprefix hne hpm

/-- A directory that had nothing of its own to pack has the members of the archive again. -/
theorem packed_restored (hs : Closed source) (h : Merged source dest t (packed source))
    (hown : ∀ p, dest.lookup p ≠ none → excluded p = true ∨ source.lookup p ≠ none) :
    packed t = packed source := by
  have hmem : ∀ m, m ∈ packed t ↔ m ∈ packed source := by
    intro m
    refine ⟨fun hm => ?_, fun hm => ?_⟩
    · obtain ⟨hlook, hkeep⟩ := mem_packed.mp hm
      by_cases hk : Kept source m.1
      · rw [h.within m.1 hk] at hlook
        exact mem_packed.mpr ⟨hlook, hkeep⟩
      · have hdest : dest.lookup m.1 ≠ none := by
          rw [← h.outside m.1 hk, hlook]
          exact nofun
        cases hnode : source.lookup m.1 with
        | none =>
          rcases hown m.1 hdest with hx | hne
          · cases hkeep.symm.trans hx
          · exact absurd hnode hne
        | some node =>
          exact absurd (kept_of_packed hs (m := (m.1, node)) (mem_packed.mpr ⟨hnode, hkeep⟩)) hk
    · have hk := kept_of_packed hs hm
      rw [mem_packed, h.within m.1 hk]
      exact mem_packed.mp hm
  refine List.Perm.eq_of_pairwise (fun a b ha hb hab hba => ?_) (pairwise_packed t)
    (pairwise_packed source)
    ((List.perm_ext_iff_of_nodup (nodup_packed t) (nodup_packed source)).mpr hmem)
  have hpath : a.1 = b.1 := le_antisymm hab hba
  have hlook := lookup_of_packed a ((hmem a).mp ha)
  rw [hpath, lookup_of_packed b hb] at hlook
  exact Prod.ext hpath (Option.some.inj hlook).symm

/-- What one run has stored of its profile and another one restores over its directory: this fails
exactly where a node that is kept and one in its place are not both files or both directories;
otherwise the directory has every node that is kept as it was, and of its own all others; of what is
excluded nothing but directories goes over; and unless the other run had more to pack of its own,
what it packs has the same members again, in the same order. -/
theorem restored_persisted {Info : Type} (K : Codec Info) (info : Info) (key : Option Text)
    (source dest : Profile) (data : Bytes)
    (htar : K.untar (packProfile K info source.tree) = some (packed source.tree))
    (hfernet : ∀ key token, K.encrypt info key (packProfile K info source.tree) = some token →
      K.decrypt key token = some (packProfile K info source.tree))
    (hdata : persisted K info source.tree key = some data) :
    let back := restored K data dest.tree key
    (back = none ↔ ∃ p, Kept source.tree p ∧ Clash source.tree dest.tree p) ∧
    ∀ t, back = some t → Closed t ∧
      (∀ p, Kept source.tree p → t.lookup p = source.tree.lookup p) ∧
      (∀ p, ¬Kept source.tree p → t.lookup p = dest.tree.lookup p) ∧
      (∀ p, Kept source.tree p → excluded p = true → t.lookup p = some .dir) ∧
      ((∀ p, dest.tree.lookup p ≠ none → excluded p = true ∨ source.tree.lookup p ≠ none) →
        packed t = packed source.tree) := by
  intro back
  have hunseal : unsealed K data key = some (packProfile K info source.tree) := by
    cases key with
    | none => exact congrArg some (Option.some.inj hdata).symm
    | some key =>
      simp only [persisted, sealed] at hdata
      rw [unsealed]
      split_ifs at hdata ⊢
      · exact congrArg some (Option.some.inj hdata).symm
      · exact hfernet key data hdata
  have hback : back = unpack dest.tree (packed source.tree) := by
    simp only [back, restored, hunseal, Option.bind_some, unpackProfile, htar]
  have hclear : back ≠ none → ∀ p, Kept source.tree p → ¬Clash source.tree dest.tree p :=
    fun hne p hp hclash =>
      hne (hback.trans (unpack_none source.closed lookup_of_packed hp hclash))
  have hmerged : (∀ p, Kept source.tree p → ¬Clash source.tree dest.tree p) →
      ∃ t, back = some t ∧ Merged source.tree dest.tree t (packed source.tree) := fun h => by
    rw [hback]
    exact unpack_some source.closed lookup_of_packed h
  refine ⟨⟨fun hnone => ?_, fun ⟨p, hp, hclash⟩ => ?_⟩, fun t ht => ?_⟩
  · by_contra hno
    push Not at hno
    obtain ⟨t, ht, -⟩ := hmerged hno
    cases hnone.symm.trans ht
  · exact hback.trans (unpack_none source.closed lookup_of_packed hp hclash)
  · have hfree := hclear (by rw [ht]; exact nofun)
    obtain ⟨t', ht', h⟩ := hmerged hfree
    obtain rfl := Option.some.inj (ht.symm.trans ht')
    refine ⟨h.closed source.closed dest.closed lookup_of_packed hfree, h.within, h.outside,
      fun p hp hx => ?_, packed_restored source.closed h⟩
    rw [h.within p hp]
    exact hp.dir source.closed hx

/-- A profile with a cache, and another one with a lock. -/
def cached : Profile where
  tree := ⟨[⟨["Cache".toList], .dir⟩, ⟨["Cache".toList, "x".toList], .file [2]⟩,
    ⟨["Default".toList], .dir⟩, ⟨["Default".toList, "Cookies".toList], .file [1]⟩],
    by unfold List.NodupKeys; decide⟩
  closed := by decide

def locked : Profile where
  tree := ⟨[⟨["Default".toList], .dir⟩, ⟨["LOCK".toList], .file []⟩],
    by unfold List.NodupKeys; decide⟩
  closed := by decide

/-- An archive of that profile, with the time in it, and how it is read. -/
def archived : Codec UInt8 where
  tar time _ := [31, 139, time]
  untar
    | [31, 139, _] => some [(["Cache".toList], .dir), (["Default".toList], .dir),
        (["Default".toList, "Cookies".toList], .file [1])]
    | _ => none
  encrypt _ _ data := some data
  decrypt _ data := some data

theorem packed_cached : packed cached.tree = [(["Cache".toList], .dir),
    (["Default".toList], .dir), (["Default".toList, "Cookies".toList], .file [1])] := by
  rw [packed, rglob, List.mergeSort_of_pairwise (by decide)]
  decide

theorem restored_persisted_cached : ∃ t : Directory,
    restored archived [31, 139, 7] locked.tree none = some t ∧
      t.lookup ["Default".toList, "Cookies".toList] = some (.file [1]) ∧
      packed t = packed cached.tree := by
  have hback : restored archived [31, 139, 7] locked.tree none =
      some ((locked.tree.insert ["Cache".toList] .dir).insert
        ["Default".toList, "Cookies".toList] (.file [1])) := by rfl
  obtain ⟨-, hwithin, -, -, hagain⟩ := (restored_persisted archived 7 none cached locked
    [31, 139, 7] (congrArg some packed_cached.symm) (fun _ _ h => h.symm) rfl).2 _ hback
  refine ⟨_, hback, ?_, hagain fun p hp => ?_⟩
  · exact hwithin _ (kept_of_packed cached.closed
      (m := (["Default".toList, "Cookies".toList], .file [1])) (by rw [packed_cached]; decide))
  · have hmem : p ∈ locked.tree.keys := by
      by_contra hno
      exact hp (AList.lookup_eq_none.mpr hno)
    have hkeys : ∀ q ∈ locked.tree.keys, excluded q = true ∨ cached.tree.lookup q ≠ none := by
      decide
    exact hkeys p hmem

end restoring

end Fakery.Profiles

import Fakery.Bots.Models
import Fakery.Paging.Descending
import Mathlib.Data.Prod.Lex

/-! The pages of the list of runs: a client that follows the cursor sees every run that was there
when it began once, while others are inserted. -/
namespace Fakery.Bots
open Fakery.Paging

/-- `created_at` and `id`, compared in this order. -/
def pageKey (run : BotRun) : ℕ ×ₗ ℕ := toLex (run.createdAt, run.id)

/-- The SELECT of the repository over the rows of the table; a cursor that is no run's id is
passed over. -/
def selectRuns (rows : List BotRun) (limit : ℕ) (cursor : Option ℕ) : List BotRun :=
  let anchor := cursor.bind fun id => rows.find? fun run => run.id = id
  let below := match anchor with
    | none => rows
    | some anchor => rows.filter fun run => pageKey run < pageKey anchor
  (descending pageKey below).take limit

def listRuns (rows : List BotRun) (limit : ℕ) (cursor : Option ℕ) : List BotRun × Option ℕ :=
  let found := selectRuns rows (limit + 1) cursor
  if found.length ≤ limit then (found, none)
  else (found.take limit, found[limit - 1]?.map BotRun.id)

/-- The pages that a client gets who follows the cursor until there is none, if that takes no more
than `fuel` requests. Request `i` sees `tables i`. -/
def follow (tables : ℕ → List BotRun) (limit : ℕ) : ℕ → ℕ → Option ℕ → Option (List (List BotRun))
  | 0, _, _ => none
  | fuel + 1, i, cursor =>
    match listRuns (tables i) limit cursor with
    | (page, none) => some [page]
    | (page, some next) => (follow tables limit fuel (i + 1) (some next)).map (page :: ·)

/-- What happens to the table between two requests. -/
inductive Change (start : List BotRun) : List BotRun → List BotRun → Prop
  | insert {rows : List BotRun} (run : BotRun) (hid : ∀ row ∈ rows, row.id ≠ run.id)
      (hlater : ∀ row ∈ start, row.createdAt < run.createdAt) : Change start rows (run :: rows)
  | update {rows : List BotRun} (f : BotRun → BotRun)
      (hid : ∀ row, (f row).id = row.id) (hcreated : ∀ row, (f row).createdAt = row.createdAt) :
      Change start rows (rows.map f)
  | reorder {rows rows' : List BotRun} (h : rows'.Perm rows) : Change start rows rows'

/-- The tables that the requests see. -/
def Evolves (tables : ℕ → List BotRun) : Prop :=
  ∀ i, Relation.ReflTransGen (Change (tables 0)) (tables i) (tables (i + 1))

variable {rows rows' start found : List BotRun} {run : BotRun} {limit i : ℕ}
  {tables : ℕ → List BotRun}

section table

/-- The runs there at the start are there, under their keys, and all others are later. -/
structure Grown (start rows : List BotRun) : Prop where
  ids : (rows.map BotRun.id).Nodup
  kept : ∀ run ∈ start, pageKey run ∈ rows.map pageKey
  later : ∀ row ∈ rows, pageKey row ∈ start.map pageKey ∨
    ∀ run ∈ start, pageKey run < pageKey row

theorem Grown.refl (h : (start.map BotRun.id).Nodup) : Grown start start :=
  ⟨h, fun _ hmem => List.mem_map_of_mem hmem, fun _ hmem => Or.inl (List.mem_map_of_mem hmem)⟩

theorem Grown.change (hg : Grown start rows) (hc : Change start rows rows') :
    Grown start rows' := by
  cases hc with
  | insert run hid hlater =>
    constructor
    · refine List.nodup_cons.mpr ⟨fun hmem => ?_, hg.ids⟩
      obtain ⟨row, hrow, heq⟩ := List.mem_map.mp hmem
      exact hid row hrow heq
    · exact fun run hmem => List.mem_cons_of_mem _ (hg.kept run hmem)
    · intro row hmem
      rcases List.mem_cons.mp hmem with rfl | hmem
      · refine Or.inr fun run hrun => ?_
        exact Prod.Lex.toLex_lt_toLex.mpr (Or.inl (hlater run hrun))
      · exact hg.later row hmem
  | update f hid hcreated =>
    have hkey : ∀ row, pageKey (f row) = pageKey row := fun row => by
      simp only [pageKey, hid, hcreated]
    have hkeys : (rows.map f).map pageKey = rows.map pageKey := by
      rw [List.map_map]
      exact List.map_congr_left fun row _ => hkey row
    have hids : (rows.map f).map BotRun.id = rows.map BotRun.id := by
      rw [List.map_map]
      exact List.map_congr_left fun row _ => hid row
    constructor
    · rw [hids]
      exact hg.ids
    · rw [hkeys]
      exact hg.kept
    · intro row hmem
      obtain ⟨row, hrow, rfl⟩ := List.mem_map.mp hmem
      rw [hkey]
      exact hg.later row hrow
  | reorder h =>
    constructor
    · exact (h.map BotRun.id).nodup_iff.mpr hg.ids
    · exact fun run hmem => (h.map pageKey).mem_iff.mpr (hg.kept run hmem)
    · exact fun row hmem => hg.later row (h.mem_iff.mp hmem)

theorem Grown.evolves (hg : Grown start rows)
    (hc : Relation.ReflTransGen (Change start) rows rows') : Grown start rows' := by
  induction hc with
  | refl => exact hg
  | tail _ hlast ih => exact ih.change hlast

theorem grown_tables (h : ((tables 0).map BotRun.id).Nodup) (he : Evolves tables) (i : ℕ) :
    Grown (tables 0) (tables i) := by
  induction i with
  | zero => exact .refl h
  | succ i ih => exact ih.evolves (he i)

theorem nodup_pageKey (h : (rows.map BotRun.id).Nodup) : (rows.map pageKey).Nodup := by
  have hids : (rows.map pageKey).map (fun k => (ofLex k).2) = rows.map BotRun.id := by
    rw [List.map_map]
    rfl
  exact List.Nodup.of_map _ (hids ▸ h)

end table

section request

variable {front rest : List (ℕ ×ₗ ℕ)} {k : ℕ ×ₗ ℕ} {cursor : Option ℕ}

/-- The keys of the runs there at the start, as a client wants to see them. -/
def startKeys (start : List BotRun) : List (ℕ ×ₗ ℕ) := (descending pageKey start).map pageKey

theorem mem_startKeys : k ∈ startKeys start ↔ k ∈ start.map pageKey :=
  ((perm_descending pageKey start).map pageKey).mem_iff

theorem pairwise_startKeys (h : (start.map BotRun.id).Nodup) :
    (startKeys start).Pairwise (· > ·) := pairwise_descending (nodup_pageKey h)

/-- A cursor is found where it was left. -/
theorem find_cursor (hg : Grown start rows) (hk : k ∈ startKeys start) :
    ∃ anchor, rows.find? (fun run => run.id = (ofLex k).2) = some anchor ∧ pageKey anchor = k := by
  obtain ⟨run, hrun, rfl⟩ := List.mem_map.mp (mem_startKeys.mp hk)
  obtain ⟨row, hrow, hkey⟩ := List.mem_map.mp (hg.kept run hrun)
  have hid : row.id = run.id := congrArg (fun k => (ofLex k).2) hkey
  cases hfind : rows.find? fun row => row.id = (ofLex (pageKey run)).2 with
  | none =>
    have hnot := List.find?_eq_none.mp hfind row hrow
    simp [pageKey, hid] at hnot
  | some anchor =>
    have hfound := List.find?_some hfind
    have hanchor : anchor.id = run.id := of_decide_eq_true hfound
    have hmem := List.mem_of_find?_eq_some hfind
    have hsame : anchor = row := List.inj_on_of_nodup_map hg.ids hmem hrow (hanchor.trans hid.symm)
    exact ⟨anchor, rfl, hsame ▸ hkey⟩

theorem selectRuns_none (limit : ℕ) :
    (selectRuns start limit none).map pageKey = (startKeys start).take limit :=
  List.map_take

/-- What was inserted meanwhile is not below a cursor. -/
theorem selectRuns_some (hstart : (start.map BotRun.id).Nodup) (hg : Grown start rows)
    (hk : k ∈ startKeys start) (limit : ℕ) :
    (selectRuns rows limit (some (ofLex k).2)).map pageKey =
      ((startKeys start).filter (· < k)).take limit := by
  obtain ⟨anchor, hfind, hanchor⟩ := find_cursor hg hk
  simp only [selectRuns, Option.bind_some, hfind, hanchor]
  rw [List.map_take]
  congr 1
  apply eq_of_descending
  · apply pairwise_descending
    exact (List.filter_sublist.map pageKey).nodup (nodup_pageKey hg.ids)
  · exact (pairwise_startKeys hstart).filter _
  · intro x
    rw [((perm_descending pageKey _).map pageKey).mem_iff, List.mem_filter, mem_startKeys]
    constructor
    · intro hx
      obtain ⟨row, hrow, rfl⟩ := List.mem_map.mp hx
      obtain ⟨hmem, hlt⟩ := List.mem_filter.mp hrow
      refine ⟨?_, hlt⟩
      rcases hg.later row hmem with hold | hnew
      · exact hold
      · obtain ⟨run, hrun, rfl⟩ := List.mem_map.mp (mem_startKeys.mp hk)
        exact absurd (of_decide_eq_true hlt) (lt_asymm (hnew run hrun))
    · rintro ⟨hx, hlt⟩
      obtain ⟨run, hrun, rfl⟩ := List.mem_map.mp hx
      obtain ⟨row, hrow, hkey⟩ := List.mem_map.mp (hg.kept run hrun)
      refine List.mem_map.mpr ⟨row, List.mem_filter.mpr ⟨hrow, ?_⟩, hkey⟩
      rw [hkey]
      exact hlt

/-- A page that is not the last one is full, and its cursor is the key of its last run. -/
theorem listRuns_cases (hlimit : 1 ≤ limit)
    (hfound : (selectRuns rows (limit + 1) cursor).map pageKey = rest.take (limit + 1)) :
    (rest.length ≤ limit ∧ ∃ page, listRuns rows limit cursor = (page, none) ∧
      page.map pageKey = rest) ∨
    ∃ page front k tail, listRuns rows limit cursor = (page, some (ofLex k).2) ∧
      page.map pageKey = front ++ [k] ∧ rest = front ++ k :: tail ∧
      (front ++ [k]).length = limit := by
  have hlength : (selectRuns rows (limit + 1) cursor).length = min (limit + 1) rest.length := by
    rw [← List.length_map pageKey, hfound, List.length_take]
  unfold listRuns
  by_cases hlast : rest.length ≤ limit
  · refine Or.inl ⟨hlast, selectRuns rows (limit + 1) cursor, ?_, ?_⟩
    · exact if_pos (by omega)
    · rw [hfound, List.take_of_length_le (by omega)]
  · obtain ⟨front, k, hfront⟩ : ∃ front k, rest.take limit = front ++ [k] := by
      have hne : rest.take limit ≠ [] := by
        intro hnil
        have hzero := congrArg List.length hnil
        rw [List.length_take, List.length_nil] at hzero
        omega
      exact ⟨_, _, (List.dropLast_concat_getLast hne).symm⟩
    have hpage : ((selectRuns rows (limit + 1) cursor).take limit).map pageKey = front ++ [k] := by
      rw [List.map_take, hfound, List.take_take, min_eq_left (by omega), hfront]
    have hsize : (front ++ [k]).length = limit := by
      rw [← hfront, List.length_take]
      omega
    have hrest : rest = front ++ k :: rest.drop limit := by
      have hcut := List.take_append_drop limit rest
      rw [hfront, List.append_assoc] at hcut
      exact hcut.symm
    have hfront : front.length = limit - 1 := by
      rw [List.length_append, List.length_singleton] at hsize
      omega
    have hkey : rest[limit - 1]? = some k := by
      rw [hrest, List.getElem?_append_right (by omega), hfront, Nat.sub_self]
      rfl
    have hnext : (selectRuns rows (limit + 1) cursor)[limit - 1]?.map pageKey = some k := by
      rw [← List.getElem?_map, hfound, List.getElem?_take_of_lt (by omega), hkey]
    obtain ⟨run, hrun, rfl⟩ := Option.map_eq_some_iff.mp hnext
    refine Or.inr ⟨_, front, pageKey run, rest.drop limit, ?_, hpage, hrest, hsize⟩
    simp only [hrun]
    exact if_neg (by omega)

end request

section walk

variable {front rest : List (ℕ ×ₗ ℕ)} {cursor : Option ℕ}

/-- What is left below the cursor is cut into pages. -/
theorem follow_paged (hlimit : 1 ≤ limit) (hstart : ((tables 0).map BotRun.id).Nodup)
    (he : Evolves tables) (hrest : front ++ rest = startKeys (tables 0))
    (hfound : (selectRuns (tables i) (limit + 1) cursor).map pageKey = rest.take (limit + 1)) :
    ∃ pages, (∀ fuel, rest.length < fuel → follow tables limit fuel i cursor = some pages) ∧
      Paged limit rest (pages.map (List.map pageKey)) := by
  induction hn : rest.length using Nat.strongRecOn generalizing rest front i cursor with
  | _ n ih =>
    subst hn
    rcases listRuns_cases hlimit hfound with ⟨hlast, page, hpage, hkeys⟩ |
      ⟨page, before, k, tail, hpage, hkeys, rfl, hsize⟩
    · refine ⟨[page], fun fuel hfuel => ?_, ?_⟩
      · obtain ⟨fuel, rfl⟩ := Nat.exists_eq_succ_of_ne_zero (Nat.ne_of_gt (Nat.zero_lt_of_lt hfuel))
        simp only [follow, hpage]
      · rw [← hkeys]
        apply Paged.last
        rwa [hkeys]
    · have hkeys' : (front ++ before) ++ k :: tail = startKeys (tables 0) := by
        rw [List.append_assoc]
        exact hrest
      have hk : k ∈ startKeys (tables 0) := by
        rw [← hkeys']
        simp
      have hbelow : (startKeys (tables 0)).filter (· < k) = tail := by
        have hsorted := pairwise_startKeys hstart
        rw [← hkeys'] at hsorted ⊢
        exact filter_lt_of_descending hsorted
      have hfound' := selectRuns_some hstart (grown_tables hstart he (i + 1)) hk (limit + 1)
      rw [hbelow] at hfound'
      have hleft : (front ++ before ++ [k]) ++ tail = startKeys (tables 0) := by
        rw [← hkeys']
        simp
      have hshorter : tail.length < (before ++ k :: tail).length := by
        simp only [List.length_append, List.length_cons]
        omega
      obtain ⟨pages, hfollow, hpaged⟩ := ih tail.length hshorter hleft hfound' rfl
      refine ⟨page :: pages, fun fuel hfuel => ?_, ?_⟩
      · obtain ⟨fuel, rfl⟩ := Nat.exists_eq_succ_of_ne_zero (Nat.ne_of_gt (Nat.zero_lt_of_lt hfuel))
        simp only [follow, hpage]
        rw [hfollow fuel (by omega)]
        rfl
      · have hsplit : before ++ k :: tail = (before ++ [k]) ++ tail := by simp
        rw [List.map_cons, hkeys, hsplit]
        exact Paged.more hsize hpaged

end walk

/-- A client that follows the cursor gets every run that was there when it began exactly once,
newest first, on full pages but for the last. -/
theorem pages_enumerate (tables : ℕ → List BotRun) (limit : ℕ) (hlimit : 1 ≤ limit)
    (hids : ((tables 0).map BotRun.id).Nodup) (he : Evolves tables) :
    ∃ pages, (∀ fuel, (tables 0).length < fuel → follow tables limit fuel 0 none = some pages) ∧
      (∀ run ∈ tables 0, pages.flatten.countP (fun row => row.id = run.id) = 1) ∧
      (pages.flatten.map pageKey).Pairwise (· > ·) ∧
      ∀ page ∈ pages.dropLast, page.length = limit := by
  have hlength : (startKeys (tables 0)).length = (tables 0).length := by
    rw [startKeys, List.length_map, (perm_descending pageKey (tables 0)).length_eq]
  have hfirst : (selectRuns (tables 0) (limit + 1) none).map pageKey =
      (startKeys (tables 0)).take (limit + 1) := selectRuns_none (limit + 1)
  obtain ⟨pages, hfollow, hpaged⟩ := follow_paged hlimit hids he (List.nil_append _) hfirst
  have hkeys : pages.flatten.map pageKey = startKeys (tables 0) := by
    rw [List.map_flatten, hpaged.flatten]
  rw [hlength] at hfollow
  refine ⟨pages, hfollow, fun run hrun => ?_, ?_, fun page hmem => ?_⟩
  · have hcount : pages.flatten.countP (fun row => row.id = run.id) =
        ((tables 0).map BotRun.id).count run.id := by
      have hperm : ((pages.flatten.map pageKey).map fun k => (ofLex k).2).Perm
          ((tables 0).map BotRun.id) := by
        rw [hkeys, startKeys, List.map_map]
        exact (perm_descending pageKey (tables 0)).map _
      rw [← hperm.count_eq, List.map_map, List.count, List.countP_map]
      refine List.countP_congr fun row _ => ?_
      simp [pageKey]
    rw [hcount]
    exact List.count_eq_one_of_mem hids (List.mem_map_of_mem hrun)
  · rw [hkeys]
    exact pairwise_startKeys hids
  · have hfull := hpaged.full (page.map pageKey)
    rw [List.length_map, ← List.map_dropLast] at hfull
    exact hfull (List.mem_map_of_mem hmem)

def listed (id createdAt : ℕ) : BotRun :=
  { id := id, meetingUrl := "https://meet.google.com/abc-defg-hij"
    meetingKey := "meet.google.com/abc-defg-hij", idempotencyKey := none, displayName := none
    status := .failed, createdAt := createdAt, updatedAt := createdAt }

/-- Three runs of which two are as old, and one that is inserted after the first request. -/
def listedTables : ℕ → List BotRun
  | 0 => [listed 1 10, listed 2 10, listed 3 20]
  | _ => [listed 4 30, listed 1 10, listed 2 10, listed 3 20]

theorem pages_enumerate_listed : ∃ pages, follow listedTables 2 4 0 none = some pages ∧
    ∀ run ∈ listedTables 0, pages.flatten.countP (fun row => row.id = run.id) = 1 := by
  have hevolves : Evolves listedTables := by
    intro i
    cases i with
    | zero => exact .single (.insert (listed 4 30) (by decide) (by decide))
    | succ i => exact .refl
  obtain ⟨pages, hfollow, honce, -⟩ :=
    pages_enumerate listedTables 2 (by decide) (by decide) hevolves
  exact ⟨pages, hfollow 4 (by decide), honce⟩

end Fakery.Bots

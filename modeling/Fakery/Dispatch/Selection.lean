import Fakery.Dispatch.Rows

/-! What `run_once` selects: of a stream only the open row with the lowest sequence. -/
namespace Fakery.Dispatch
open Fakery.Bots WebhookDelivery

variable {rows items : List WebhookDelivery} {d r : WebhookDelivery} {moment : ℕ}
  {groups : List Group} {g : Group} {key : ℕ × ℕ}

section groups

/-- The members of the group with this key. -/
def members (key : ℕ × ℕ) : List Group → List WebhookDelivery
  | [] => []
  | g :: groups => if g.1 = key then g.2 else members key groups

theorem keys_addToGroup : (addToGroup d groups).map Prod.fst =
    if d.stream ∈ groups.map Prod.fst then groups.map Prod.fst
    else groups.map Prod.fst ++ [d.stream] := by
  induction groups with
  | nil => rfl
  | cons x groups ih =>
    by_cases h : x.1 = d.stream
    · simp [addToGroup, h]
    · have hne : ¬d.stream = x.1 := fun he => h he.symm
      simp only [addToGroup, if_neg h, List.map_cons, ih, List.mem_cons, hne, false_or]
      split_ifs <;> rfl

theorem mem_addToGroup (hk : (groups.map Prod.fst).Nodup) : g ∈ addToGroup d groups ↔
    g ∈ groups ∧ g.1 ≠ d.stream ∨ g = (d.stream, members d.stream groups ++ [d]) := by
  induction groups with
  | nil => simp [addToGroup, members]
  | cons x groups ih =>
    obtain ⟨hx, hk⟩ := List.nodup_cons.mp hk
    by_cases h : x.1 = d.stream
    · have hother : g ∈ groups → g.1 ≠ d.stream := fun hg he =>
        hx (h ▸ he ▸ List.mem_map_of_mem hg)
      simp only [addToGroup, if_pos h, members, List.mem_cons]
      constructor
      · rintro (rfl | hg)
        · exact Or.inr (by rw [h])
        · exact Or.inl ⟨Or.inr hg, hother hg⟩
      · rintro (⟨rfl | hg, hne⟩ | rfl)
        · exact absurd h hne
        · exact Or.inr hg
        · exact Or.inl (by rw [h])
    · simp only [addToGroup, if_neg h, members, List.mem_cons, ih hk]
      constructor
      · rintro (rfl | ⟨hg, hne⟩ | hg)
        · exact Or.inl ⟨Or.inl rfl, h⟩
        · exact Or.inl ⟨Or.inr hg, hne⟩
        · exact Or.inr hg
      · rintro (⟨rfl | hg, hne⟩ | hg)
        · exact Or.inl rfl
        · exact Or.inr (Or.inl ⟨hg, hne⟩)
        · exact Or.inr (Or.inr hg)

theorem mem_of_mem_members (h : d ∈ members key groups) : ∃ g ∈ groups, g.1 = key ∧ d ∈ g.2 := by
  induction groups with
  | nil => cases h
  | cons x groups ih =>
    unfold members at h
    split_ifs at h with hx
    · exact ⟨x, List.mem_cons_self, hx, h⟩
    · obtain ⟨g, hg, hd⟩ := ih h
      exact ⟨g, List.mem_cons_of_mem _ hg, hd⟩

theorem members_of_mem (hk : (groups.map Prod.fst).Nodup) (hg : g ∈ groups) :
    members g.1 groups = g.2 := by
  induction groups with
  | nil => cases hg
  | cons x groups ih =>
    obtain ⟨hx, hk⟩ := List.nodup_cons.mp hk
    unfold members
    rcases List.mem_cons.mp hg with rfl | hg
    · rw [if_pos rfl]
    · have hne : x.1 ≠ g.1 := fun he => hx (he ▸ List.mem_map_of_mem hg)
      rw [if_neg hne, ih hk hg]

/-- The groups hold the items, each under its own stream. -/
structure Grouped (items : List WebhookDelivery) (groups : List Group) : Prop where
  keys : (groups.map Prod.fst).Nodup
  sound : ∀ g ∈ groups, ∀ i ∈ g.2, i ∈ items ∧ i.stream = g.1
  complete : ∀ i ∈ items, ∃ g ∈ groups, g.1 = i.stream ∧ i ∈ g.2

theorem Grouped.add (h : Grouped items groups) (d : WebhookDelivery) :
    Grouped (items ++ [d]) (addToGroup d groups) := by
  refine ⟨?_, fun g hg i hi => ?_, fun i hi => ?_⟩
  · rw [keys_addToGroup]
    split_ifs with hd
    · exact h.keys
    · exact List.nodup_append.mpr ⟨h.keys, List.nodup_singleton _, fun a ha b hb => by
        obtain rfl := List.mem_singleton.mp hb
        exact fun he => hd (he ▸ ha)⟩
  · rcases (mem_addToGroup h.keys).mp hg with ⟨hg, -⟩ | rfl
    · obtain ⟨hi, hs⟩ := h.sound g hg i hi
      exact ⟨List.mem_append_left _ hi, hs⟩
    · rcases List.mem_append.mp hi with hi | hi
      · obtain ⟨g, hg, hkey, hi⟩ := mem_of_mem_members hi
        obtain ⟨hi, hs⟩ := h.sound g hg i hi
        exact ⟨List.mem_append_left _ hi, hs.trans hkey⟩
      · obtain rfl := List.mem_singleton.mp hi
        exact ⟨List.mem_append_right _ hi, rfl⟩
  · by_cases hs : i.stream = d.stream
    · refine ⟨_, (mem_addToGroup h.keys).mpr (Or.inr rfl), hs.symm, ?_⟩
      rcases List.mem_append.mp hi with hi | hi
      · obtain ⟨g, hg, hkey, hi⟩ := h.complete i hi
        refine List.mem_append_left _ ?_
        rwa [← hs, ← hkey, members_of_mem h.keys hg]
      · exact List.mem_append_right _ hi
    · have hi : i ∈ items := by
        rcases List.mem_append.mp hi with hi | hi
        · exact hi
        · exact absurd (congrArg stream (List.mem_singleton.mp hi)) hs
      obtain ⟨g, hg, hkey, hi⟩ := h.complete i hi
      exact ⟨g, (mem_addToGroup h.keys).mpr (Or.inl ⟨hg, hkey ▸ hs⟩), hkey, hi⟩

theorem grouped_foldl (h : Grouped items groups) (more : List WebhookDelivery) :
    Grouped (items ++ more) (more.foldl (fun groups item => addToGroup item groups) groups) := by
  induction more generalizing items groups with
  | nil => rwa [List.append_nil]
  | cons d more ih =>
    have hd := ih (h.add d)
    rwa [List.append_assoc, List.singleton_append] at hd

theorem grouped_groupByStream (items : List WebhookDelivery) :
    Grouped items (groupByStream items) := by
  have hnil : Grouped [] [] := ⟨List.nodup_nil, by simp, by simp⟩
  have h := grouped_foldl hnil items
  rw [List.nil_append] at h
  refine ⟨?_, fun g hg i hi => ?_, fun i hi => ?_⟩
  · rw [groupByStream, List.map_map]
    exact h.keys
  · obtain ⟨raw, hraw, rfl⟩ := List.mem_map.mp hg
    exact h.sound raw hraw i ((List.mem_insertionSort _).mp hi)
  · obtain ⟨g, hg, hkey, hi⟩ := h.complete i hi
    exact ⟨_, List.mem_map_of_mem hg, hkey, (List.mem_insertionSort _).mpr hi⟩

end groups

section heads

theorem pairwise_of_mem (hg : g ∈ groupByStream items) : g.2.Pairwise Precedes := by
  obtain ⟨raw, -, rfl⟩ := List.mem_map.mp hg
  exact List.pairwise_insertionSort Precedes raw.2

theorem sequence_le_of_precedes (h : Precedes d r) : d.sequence ≤ r.sequence := by
  unfold Precedes at h
  omega

/-- The head of a group has the lowest sequence of its stream among the items. -/
theorem head_of_groupByStream (hg : g ∈ groupByStream items) (hd : g.2.head? = some d) :
    d ∈ items ∧ ∀ r ∈ items, r.stream = d.stream → d.sequence ≤ r.sequence := by
  have h := grouped_groupByStream items
  have hmem : d ∈ g.2 := List.mem_of_mem_head? hd
  obtain ⟨hitem, hkey⟩ := h.sound g hg d hmem
  refine ⟨hitem, fun r hr hs => ?_⟩
  obtain ⟨g', hg', hkey', hr'⟩ := h.complete r hr
  have hgg : g' = g := List.inj_on_of_nodup_map h.keys hg' hg (hkey'.trans (hs.trans hkey))
  subst hgg
  have hsorted := pairwise_of_mem hg
  obtain ⟨rest, hrest⟩ := List.head?_eq_some_iff.mp hd
  rw [hrest] at hsorted hr'
  rcases List.mem_cons.mp hr' with rfl | hr'
  · exact Nat.le_refl _
  · exact sequence_le_of_precedes ((List.pairwise_cons.mp hsorted).1 r hr')

/-- The rows that come before a selected row are selected with it. -/
theorem mem_selectOpen_of_lt (hd : d ∈ selectOpen rows) (hr : r ∈ rows) (ho : r.isOpen = true)
    (hlt : r.sequence < d.sequence) : r ∈ selectOpen rows := by
  unfold selectOpen at hd ⊢
  generalize hsort : (rows.filter WebhookDelivery.isOpen).insertionSort Selects = sorted at hd ⊢
  have hpair : sorted.Pairwise Selects := hsort ▸ List.pairwise_insertionSort Selects _
  have hmem : r ∈ sorted := by
    rw [← hsort, List.mem_insertionSort]
    exact List.mem_filter.mpr ⟨hr, ho⟩
  rw [← List.take_append_drop SEND_BATCH sorted] at hmem hpair
  rcases List.mem_append.mp hmem with hmem | hmem
  · exact hmem
  · have hs := (List.pairwise_append.mp hpair).2.2 d hd r hmem
    unfold Selects at hs
    omega

theorem mem_of_mem_selectOpen (hd : d ∈ selectOpen rows) : d ∈ rows ∧ d.isOpen = true := by
  have hsort := List.mem_of_mem_take hd
  exact List.mem_filter.mp ((List.mem_insertionSort _).mp hsort)

/-- A row that is ready has no open row of its stream before it. -/
theorem ready_first (hd : d ∈ readyDeliveries (selectOpen rows) moment) :
    d ∈ rows ∧ ∀ r ∈ rows, r.stream = d.stream → r.sequence < d.sequence → r.isOpen = false := by
  obtain ⟨g, hg, hhead⟩ := List.mem_filterMap.mp hd
  obtain ⟨hhead, -⟩ := Option.filter_eq_some_iff.mp hhead
  obtain ⟨hsel, hmin⟩ := head_of_groupByStream hg hhead
  refine ⟨(mem_of_mem_selectOpen hsel).1, fun r hr hs hlt => ?_⟩
  by_contra ho
  have hle := hmin r (mem_selectOpen_of_lt hsel hr ((Bool.not_eq_false _).mp ho) hlt) hs
  omega

end heads

end Fakery.Dispatch

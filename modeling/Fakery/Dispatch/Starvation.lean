import Fakery.Dispatch.Selection
import Fakery.Queue.Batch

/-! The batch of `run_once` is cut off before the rows are grouped, so that open rows that cannot be
sent keep out of it those that could. -/
namespace Fakery.Dispatch
open Fakery.Bots Fakery.Queue WebhookDelivery

/-- The content of the table: the identifier is the primary key. -/
structure Deliveries where
  rows : List WebhookDelivery
  key : (rows.map WebhookDelivery.id).Nodup

/-- The row comes before the other one in the order of the query. -/
def Before (d e : WebhookDelivery) : Prop := ¬Selects e d

instance : DecidableRel Before := fun _ _ => inferInstanceAs (Decidable (¬_))

namespace Deliveries

variable (table : Deliveries)

def openRows : List WebhookDelivery := table.rows.filter WebhookDelivery.isOpen

/-- Less than a batch of open rows come before the row. -/
def InBatch (d : WebhookDelivery) : Prop :=
  table.openRows.countP (fun e => Before e d) < SEND_BATCH

/-- The open row of its stream with the lowest sequence. -/
def Lowest (d : WebhookDelivery) : Prop :=
  d ∈ table.openRows ∧ ∀ e ∈ table.openRows, e.stream = d.stream → Precedes d e

/-- Some stream has something to send now. -/
def HasDue (moment : ℕ) : Prop := ∃ d, table.Lowest d ∧ isReady moment d = true

def selection (moment : ℕ) : List WebhookDelivery :=
  readyDeliveries (selectOpen table.rows) moment

/-- A row that is due is in the batch, and of the open rows of its stream that have a lower
sequence (or the same one and a lower identifier) none is. -/
def DueInBatch (moment : ℕ) : Prop :=
  ∃ d ∈ table.openRows, isReady moment d = true ∧ table.InBatch d ∧
    ∀ e ∈ table.openRows, e.stream = d.stream → ¬Precedes d e → ¬table.InBatch e

end Deliveries

variable {table : Deliveries} {d e : WebhookDelivery} {moment : ℕ} {g : Group}

theorem before_of_selects (h : Selects d e) (hid : d.id ≠ e.id) : Before d e := by
  unfold Before Selects at *
  omega

theorem before_asymm (d e : WebhookDelivery) (h : Before d e) : ¬Before e d := by
  unfold Before Selects at *
  omega

theorem Deliveries.eq_of_id (hd : d ∈ table.openRows) (he : e ∈ table.openRows)
    (hid : d.id = e.id) : d = e :=
  List.inj_on_of_nodup_map table.key (List.mem_of_mem_filter hd) (List.mem_of_mem_filter he) hid

theorem Deliveries.sorted (table : Deliveries) :
    (table.openRows.insertionSort Selects).Pairwise Before := by
  have hsort := List.pairwise_insertionSort Selects table.openRows
  have hsub : (table.openRows.map WebhookDelivery.id).Sublist
      (table.rows.map WebhookDelivery.id) := List.filter_sublist.map _
  have hids : ((table.openRows.insertionSort Selects).map WebhookDelivery.id).Nodup :=
    ((List.perm_insertionSort Selects _).map _).nodup_iff.mpr (hsub.nodup table.key)
  have hne := List.pairwise_map.mp hids
  exact (hsort.and hne).imp fun h => before_of_selects h.1 h.2

/-- The batch is what the LIMIT leaves of the open rows. -/
theorem mem_selectOpen : d ∈ selectOpen table.rows ↔ d ∈ table.openRows ∧ table.InBatch d := by
  have hperm := List.perm_insertionSort Selects table.openRows
  unfold selectOpen Deliveries.InBatch
  rw [← hperm.countP_eq, ← hperm.mem_iff]
  exact mem_take_iff_countP table.sorted before_asymm

/-- The head of a group comes before all the items of its stream. -/
theorem precedes_of_head {items : List WebhookDelivery} (hg : g ∈ groupByStream items)
    (hd : g.2.head? = some d) :
    d ∈ items ∧ ∀ e ∈ items, e.stream = d.stream → Precedes d e := by
  have h := grouped_groupByStream items
  obtain ⟨hitem, hkey⟩ := h.sound g hg d (List.mem_of_mem_head? hd)
  refine ⟨hitem, fun e he hs => ?_⟩
  obtain ⟨g', hg', hkey', he'⟩ := h.complete e he
  have hgg : g' = g := List.inj_on_of_nodup_map h.keys hg' hg (hkey'.trans (hs.trans hkey))
  subst hgg
  have hsorted := pairwise_of_mem hg
  obtain ⟨rest, hrest⟩ := List.head?_eq_some_iff.mp hd
  rw [hrest] at hsorted he'
  rcases List.mem_cons.mp he' with rfl | he'
  · exact Or.inr ⟨rfl, Nat.le_refl _⟩
  · exact List.rel_of_pairwise_cons hsorted he'

/-- An item that comes before all those of its stream is the head of its group. -/
theorem head_of_precedes (hd : d ∈ selectOpen table.rows)
    (hfirst : ∀ e ∈ selectOpen table.rows, e.stream = d.stream → Precedes d e) :
    ∃ g ∈ groupByStream (selectOpen table.rows), g.2.head? = some d := by
  have h := grouped_groupByStream (selectOpen table.rows)
  obtain ⟨g, hg, hkey, hmem⟩ := h.complete d hd
  refine ⟨g, hg, ?_⟩
  cases hhead : g.2.head? with
  | none => simp [List.head?_eq_none_iff.mp hhead] at hmem
  | some e =>
    obtain ⟨he, hbefore⟩ := precedes_of_head hg hhead
    have hstream := (h.sound g hg e (List.mem_of_mem_head? hhead)).2
    have hde := hfirst e he (hstream.trans hkey)
    have hed := hbefore d hd (hkey.symm.trans hstream.symm)
    have hid : e.id = d.id := by
      unfold Precedes at hde hed
      omega
    rw [Deliveries.eq_of_id (mem_selectOpen.mp he).1 (mem_selectOpen.mp hd).1 hid]

theorem selection_ne_nil : table.selection moment ≠ [] ↔
    ∃ g ∈ groupByStream (selectOpen table.rows), ∃ d,
      g.2.head? = some d ∧ isReady moment d = true := by
  unfold Deliveries.selection readyDeliveries
  rw [ne_eq, List.filterMap_eq_nil_iff]
  constructor
  · intro h
    push Not at h
    obtain ⟨g, hg, hne⟩ := h
    obtain ⟨d, hd⟩ := Option.ne_none_iff_exists'.mp hne
    exact ⟨g, hg, d, Option.filter_eq_some_iff.mp hd⟩
  · intro ⟨g, hg, d, hd, hready⟩ h
    have hnone := h g hg
    rw [Option.filter_eq_some_iff.mpr ⟨hd, hready⟩] at hnone
    cases hnone

theorem selection_iff : table.selection moment ≠ [] ↔ table.DueInBatch moment := by
  rw [selection_ne_nil]
  constructor
  · intro ⟨g, hg, d, hd, hready⟩
    obtain ⟨hmem, hfirst⟩ := precedes_of_head hg hd
    obtain ⟨hopen, hin⟩ := mem_selectOpen.mp hmem
    refine ⟨d, hopen, hready, hin, fun e he hs hnot hein => ?_⟩
    exact hnot (hfirst e (mem_selectOpen.mpr ⟨he, hein⟩) hs)
  · intro ⟨d, hopen, hready, hin, hout⟩
    have hmem := mem_selectOpen.mpr ⟨hopen, hin⟩
    obtain ⟨g, hg, hd⟩ := head_of_precedes hmem fun e he hs => by
      obtain ⟨heopen, hein⟩ := mem_selectOpen.mp he
      by_contra hnot
      exact hout e heopen hs hnot hein
    exact ⟨g, hg, d, hd, hready⟩

/-- What is due is selected exactly when some of it is in the batch. -/
theorem due_selected_iff (table : Deliveries) (moment : ℕ) :
    (table.HasDue moment → table.selection moment ≠ []) ↔
      (table.HasDue moment → table.DueInBatch moment) := by
  rw [selection_iff]

section blocked

/-- The first delivery of bot `b`, which is given up. -/
def givenUp (b : ℕ) : WebhookDelivery :=
  { id := b, subscriptionId := 7, eventId := b, sequence := 1, url := "https://hooks.example/a"
    payload := .statusChanged b .queued b, status := .dead, nextTryAt := 0, createdAt := 0 }

/-- A whole batch of dead rows, and the second delivery of one more bot. -/
def deadBatch : Deliveries where
  rows := { givenUp SEND_BATCH with sequence := 2, status := .pending } ::
    (List.range SEND_BATCH).map givenUp
  key := by decide +kernel

theorem not_due_selected : ¬∀ (table : Deliveries) (moment : ℕ),
    table.HasDue moment → table.selection moment ≠ [] := by
  intro h
  have hdue : deadBatch.HasDue 0 := by
    refine ⟨{ givenUp SEND_BATCH with sequence := 2, status := .pending }, ?_, by decide⟩
    unfold Deliveries.Lowest
    decide +kernel
  have hnone : deadBatch.selection 0 = [] := by decide +kernel
  exact h deadBatch 0 hdue hnone

end blocked

end Fakery.Dispatch

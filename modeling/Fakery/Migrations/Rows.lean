import Fakery.Migrations.Keys

/-! The tables after the migration, row by row, and when it succeeds. -/
namespace Fakery.Migrations
open Fakery.Meetings Fakery.Windows

variable {Id : Type}

section statements

variable {α κ : Type} [DecidableEq κ] {rows : List α} {entry : α → Option κ}

theorem uniqueIndex_of_injective (h : rows.Nodup)
    (hentry : ∀ x ∈ rows, ∀ y ∈ rows, ∀ e, entry x = some e → entry y = some e → x = y) :
    uniqueIndex entry rows = true := by
  apply decide_eq_true
  rw [List.Nodup, List.pairwise_filterMap]
  apply List.Pairwise.imp_of_mem _ h
  intro x y hx hy hne e he e' he' heq
  subst heq
  exact hne (hentry x hx y hy e he he')

theorem uniqueIndex_of_none (h : ∀ x ∈ rows, entry x = none) : uniqueIndex entry rows = true := by
  have hnil : rows.filterMap entry = [] := List.filterMap_eq_nil_iff.mpr h
  rw [uniqueIndex, hnil]
  rfl

theorem update_eq {set : α → α} {fits : α → Bool} {rows : List α} :
    update set fits rows = if (rows.map set).all fits then some (rows.map set) else none := rfl

end statements

section bots

variable {bots : List (BotRow Id)} {b c : BotRow Id}

/-- A row with its key. -/
def keyedRow (b : BotRow Id) : PilotBot Id :=
  { toBotRow := b, meetingKey := some (sqlKey b.meetingUrl)
    recordingStatus := "unknown", finalizationStatus := "unknown" }

/-- The rows among which duplicates are looked for. -/
def activeRows (bots : List (BotRow Id)) : List (PilotBot Id) :=
  (bots.map keyedRow).filter fun b => b.meetingKey.isSome && b.active

theorem mem_activeRows : keyedRow b ∈ activeRows bots ↔ b ∈ bots ∧ b.active = true := by
  have hinj : Function.Injective fun b : BotRow Id => keyedRow b :=
    fun _ _ h => congrArg PilotBot.toBotRow h
  have hmem : keyedRow b ∈ bots.map keyedRow ↔ b ∈ bots := List.mem_map_of_injective hinj
  rw [activeRows, List.mem_filter, hmem]
  rfl

theorem activeRows_keys (h : (bots.map BotRow.id).Nodup) :
    ((activeRows bots).map fun b => b.id).Nodup := by
  have hmap : (bots.map keyedRow).map (fun b => b.id) = bots.map BotRow.id := by
    rw [List.map_map]
    rfl
  have hsub : ((activeRows bots).map fun b => b.id).Sublist
      ((bots.map keyedRow).map fun b => b.id) := List.filter_sublist.map _
  exact (hmap ▸ h).sublist hsub

theorem rows_eq (hsite : ∀ b ∈ bots, site <+: b.meetingUrl) :
    ((addBotColumns bots).map markUnknown).map setMeetingKey = bots.map keyedRow := by
  rw [addBotColumns, List.map_map, List.map_map]
  apply List.map_congr_left
  intro b hb
  have hlike : site.isPrefixOf b.meetingUrl = true := List.isPrefixOf_iff_prefix.mpr (hsite b hb)
  simp only [Function.comp_apply, setMeetingKey, markUnknown, hlike]
  rfl

variable [LinearOrder Id]

def rank (bots : List (BotRow Id)) (b : BotRow Id) : ℕ :=
  rowNumber PilotBot.meetingKey (fun b => b.place) (activeRows bots) (keyedRow b)

/-- A row after the migration. -/
def finalRow (bots : List (BotRow Id)) (b : BotRow Id) : PilotBot Id :=
  failDuplicate (rankedBots (bots.map keyedRow)) (keyedRow b)

theorem lookup_ranked_active (h : (bots.map BotRow.id).Nodup) (hb : b ∈ bots)
    (ha : b.active = true) :
    (rankedBots (bots.map keyedRow)).lookup b.id = some (rank bots b) :=
  lookup_of_mem _ (activeRows_keys h) (mem_activeRows.mpr ⟨hb, ha⟩)

theorem lookup_ranked_inactive (h : (bots.map BotRow.id).Nodup) (hb : b ∈ bots)
    (ha : b.active = false) : (rankedBots (bots.map keyedRow)).lookup b.id = none := by
  apply lookup_of_not_mem
  intro hmem
  obtain ⟨row, hrow, hid⟩ := List.mem_map.mp hmem
  obtain ⟨c, hc, rfl⟩ := List.mem_map.mp (List.mem_filter.mp hrow).1
  have hactive := (mem_activeRows.mp hrow).2
  have hsame : c = b := List.inj_on_of_nodup_map h hc hb hid
  rw [hsame, ha] at hactive
  cases hactive

/-- The earliest active row of each key stays as it is, and so do the rows that are not active. -/
theorem finalRow_kept (h : (bots.map BotRow.id).Nodup) (hb : b ∈ bots)
    (hkept : b.active = false ∨ rank bots b = 1) : finalRow bots b = keyedRow b := by
  unfold finalRow failDuplicate
  have hid : (keyedRow b).id = b.id := rfl
  apply if_neg
  rw [hid]
  cases ha : b.active with
  | false =>
    rw [lookup_ranked_inactive h hb ha]
    exact Bool.false_ne_true
  | true =>
    have hone : rank bots b = 1 := by
      rcases hkept with hfalse | hone
      · rw [ha] at hfalse
        cases hfalse
      · exact hone
    rw [lookup_ranked_active h hb ha, hone]
    decide

theorem finalRow_failed (h : (bots.map BotRow.id).Nodup) (hb : b ∈ bots)
    (ha : b.active = true) (hrank : rank bots b ≠ 1) :
    (finalRow bots b).active = false := by
  have hpos : 1 < rank bots b := by
    have hone : 1 ≤ rank bots b := Nat.le_add_left 1 _
    omega
  unfold finalRow failDuplicate
  have hid : (keyedRow b).id = b.id := rfl
  rw [hid, lookup_ranked_active h hb ha, if_pos (by simpa using hpos)]
  rfl

theorem active_finalRow (h : (bots.map BotRow.id).Nodup) (hb : b ∈ bots) :
    (finalRow bots b).active = true ↔ b.active = true ∧ rank bots b = 1 := by
  constructor
  · intro hfinal
    cases ha : b.active with
    | false =>
      rw [finalRow_kept h hb (Or.inl ha)] at hfinal
      exact absurd (ha.symm.trans hfinal) Bool.false_ne_true
    | true =>
      refine ⟨rfl, ?_⟩
      by_contra hrank
      rw [finalRow_failed h hb ha hrank] at hfinal
      cases hfinal
  · rintro ⟨ha, hrank⟩
    rw [finalRow_kept h hb (Or.inr hrank)]
    exact ha

theorem finalRow_columns (bots : List (BotRow Id)) (b : BotRow Id) :
    (finalRow bots b).id = b.id ∧ (finalRow bots b).meetingUrl = b.meetingUrl ∧
      (finalRow bots b).createdAt = b.createdAt ∧
      (finalRow bots b).meetingKey = some (sqlKey b.meetingUrl) ∧
      (finalRow bots b).idempotencyKey = none := by
  unfold finalRow failDuplicate
  split <;> exact ⟨rfl, rfl, rfl, rfl, rfl⟩

/-- Two active rows with one key are one. -/
theorem finalRow_unique (h : (bots.map BotRow.id).Nodup) (hb : b ∈ bots) (hc : c ∈ bots)
    (hab : (finalRow bots b).active = true) (hac : (finalRow bots c).active = true)
    (hkey : sqlKey b.meetingUrl = sqlKey c.meetingUrl) : b = c := by
  obtain ⟨hb1, hbrank⟩ := (active_finalRow h hb).mp hab
  obtain ⟨hc1, hcrank⟩ := (active_finalRow h hc).mp hac
  have hpart : (keyedRow b).meetingKey = (keyedRow c).meetingKey := congrArg some hkey
  have hrow := rowNumber_injective (mem_activeRows.mpr ⟨hb, hb1⟩) hpart (hbrank.trans hcrank.symm)
  exact congrArg PilotBot.toBotRow hrow

/-- The active rows have different keys. -/
theorem activeIndex_finalRow (h : (bots.map BotRow.id).Nodup) :
    uniqueIndex PilotBot.activeEntry (bots.map (finalRow bots)) = true := by
  have hnodup : (bots.map (finalRow bots)).Nodup := by
    have hids : ((bots.map (finalRow bots)).map fun b => b.id) = bots.map BotRow.id := by
      rw [List.map_map]
      exact List.map_congr_left fun b _ => (finalRow_columns bots b).1
    exact List.Nodup.of_map _ (hids ▸ h)
  apply uniqueIndex_of_injective hnodup
  intro x hx y hy e he he'
  obtain ⟨b, hb, rfl⟩ := List.mem_map.mp hx
  obtain ⟨c, hc, rfl⟩ := List.mem_map.mp hy
  unfold PilotBot.activeEntry at he he'
  split_ifs at he he' with hab hac
  rw [(finalRow_columns bots b).2.2.2.1] at he
  rw [(finalRow_columns bots c).2.2.2.1] at he'
  have hkey := Option.some.inj (he.trans he'.symm)
  rw [finalRow_unique h hb hc hab hac hkey]

/-- The bots are migrated if every key fits its column. -/
theorem upgradeBots_eq_some (h : (bots.map BotRow.id).Nodup)
    (hsite : ∀ b ∈ bots, site <+: b.meetingUrl) {rows : List (PilotBot Id)} :
    upgradeBots bots = some rows ↔
      (∀ b ∈ bots, (sqlCode b.meetingUrl).length ≤ 240) ∧ rows = bots.map (finalRow bots) := by
  have hfits : ((bots.map keyedRow).all fun b => varchar 256 b.meetingKey) = true ↔
      ∀ b ∈ bots, (sqlCode b.meetingUrl).length ≤ 240 := by
    rw [List.all_eq_true, List.forall_mem_map]
    apply forall₂_congr
    intro b _
    have hlength := length_sqlKey b.meetingUrl
    simp only [varchar, keyedRow, Option.all_some, decide_eq_true_eq]
    omega
  have hactive := activeIndex_finalRow h
  have hidempotency : uniqueIndex PilotBot.idempotencyKey (bots.map (finalRow bots)) = true := by
    apply uniqueIndex_of_none
    intro x hx
    obtain ⟨b, -, rfl⟩ := List.mem_map.mp hx
    exact (finalRow_columns bots b).2.2.2.2
  have hfinal : (bots.map keyedRow).map (failDuplicate (rankedBots (bots.map keyedRow))) =
      bots.map (finalRow bots) := by
    rw [List.map_map]
    rfl
  unfold upgradeBots
  simp only [update_eq, rows_eq hsite]
  by_cases hall : ∀ b ∈ bots, (sqlCode b.meetingUrl).length ≤ 240
  · rw [if_pos (hfits.mpr hall)]
    simp only [Option.bind_eq_bind, Option.bind_some, hfinal, hactive, hidempotency, Bool.and_self,
      if_true, Option.some.injEq]
    exact ⟨fun hrows => ⟨hall, hrows.symm⟩, fun hboth => hboth.2.symm⟩
  · rw [if_neg (mt hfits.mp hall)]
    exact ⟨fun hnone => (nomatch hnone), fun hboth => absurd hboth.1 hall⟩

end bots

section numbering

variable {rows : List (PilotDelivery Id)} {x y : PilotDelivery Id}

theorem streamEntry_eq_some {w : Id} {b : Text} {n : ℕ} :
    x.streamEntry = some (w, b, n) ↔ x.stream = (some w, some b) ∧ x.sequence = n := by
  unfold PilotDelivery.streamEntry PilotDelivery.stream
  cases x.subscriptionId <;> cases x.botId <;> simp [and_assoc]

variable [LinearOrder Id]

def numberOf (rows : List (PilotDelivery Id)) (x : PilotDelivery Id) : ℕ :=
  rowNumber PilotDelivery.stream PilotDelivery.place rows x

/-- A delivery with its number, counting from 0. -/
def numberedRow (rows : List (PilotDelivery Id)) (x : PilotDelivery Id) : PilotDelivery Id :=
  { x with sequence := numberOf rows x - 1 }

theorem numberOf_pos (rows : List (PilotDelivery Id)) (x : PilotDelivery Id) :
    0 < numberOf rows x := Nat.succ_pos _

theorem setSequence_rows (h : (rows.map fun x => x.id).Nodup) :
    rows.map (setSequence (rankedDeliveries rows)) = rows.map (numberedRow rows) := by
  apply List.map_congr_left
  intro x hx
  have hlookup : (rankedDeliveries rows).lookup x.id = some (numberOf rows x - 1) :=
    lookup_of_mem _ h hx
  rw [setSequence, hlookup]
  rfl

theorem numbers_fit (h : rows.Nodup) :
    (∀ x ∈ rows, (numberedRow rows x).sequence < 2147483648) ↔
      ∀ k, (rows.filter fun x => x.stream = k).length ≤ 2147483648 := by
  have hle : ∀ x, (numberedRow rows x).sequence < 2147483648 ↔ numberOf rows x ≤ 2147483648 := by
    intro x
    have hpos := numberOf_pos rows x
    unfold numberedRow
    dsimp only
    omega
  constructor
  · intro hall k
    have hnumbers : ∀ x ∈ rows, x.stream = k →
        rowNumber PilotDelivery.stream PilotDelivery.place rows x ≤ 2147483648 :=
      fun x hx _ => (hle x).mp (hall x hx)
    exact (rowNumber_le_iff h k (2147483648)).mp hnumbers
  · intro hall x hx
    exact (hle x).mpr ((rowNumber_le_iff h x.stream (2147483648)).mpr (hall x.stream) x hx rfl)

theorem uniqueIndex_numbered (hids : (rows.map fun x => x.id).Nodup) :
    uniqueIndex PilotDelivery.streamEntry (rows.map (numberedRow rows)) = true := by
  apply uniqueIndex_of_injective
  · have hkeys : ((rows.map (numberedRow rows)).map fun x => x.id) = rows.map fun x => x.id := by
      rw [List.map_map]
      rfl
    exact List.Nodup.of_map _ (hkeys ▸ hids)
  · intro _ hleft _ hright entry hxe hye
    obtain ⟨x, hx, rfl⟩ := List.mem_map.mp hleft
    obtain ⟨y, hy, rfl⟩ := List.mem_map.mp hright
    obtain ⟨w, b, n⟩ := entry
    obtain ⟨hxs, hxn⟩ := streamEntry_eq_some.mp hxe
    obtain ⟨hys, hyn⟩ := streamEntry_eq_some.mp hye
    have hstream : x.stream = y.stream := hxs.trans hys.symm
    have hnumber : numberOf rows x = numberOf rows y := by
      have hxpos := numberOf_pos rows x
      have hypos := numberOf_pos rows y
      unfold numberedRow at hxn hyn
      dsimp only at hxn hyn
      omega
    rw [rowNumber_injective hx hstream hnumber]

/-- In every stream the deliveries are numbered from 0 on, in order. -/
theorem window_sequences (h : rows.Nodup) (k : Option Id × Option Text) :
    (window PilotDelivery.stream PilotDelivery.place (rows.map (numberedRow rows)) k).map
        PilotDelivery.sequence =
      List.range (window PilotDelivery.stream PilotDelivery.place
        (rows.map (numberedRow rows)) k).length := by
  have hwindow : window PilotDelivery.stream PilotDelivery.place (rows.map (numberedRow rows)) k =
      (window PilotDelivery.stream PilotDelivery.place rows k).map (numberedRow rows) :=
    window_map (fun _ _ => rfl) fun _ _ => rfl
  have hnumbers : (window PilotDelivery.stream PilotDelivery.place rows k).map (numberOf rows) =
      (List.range (window PilotDelivery.stream PilotDelivery.place rows k).length).map (· + 1) :=
    map_rowNumber h k
  have hless := congrArg (List.map (· - 1)) hnumbers
  rw [List.map_map, List.map_map] at hless
  have hback : (· - 1) ∘ (· + 1) = (id : ℕ → ℕ) := funext fun n => Nat.add_sub_cancel n 1
  rw [hback, List.map_id] at hless
  rw [hwindow, List.map_map, List.length_map]
  exact hless

end numbering

section deliveries

variable (text : Id → Text) (pick : Id → List (Subscription Id) → Option (Subscription Id))
  (subscriptions : List (Subscription Id))

/-- The subscription that a delivery gets. -/
def subscriptionOf (d : Delivery Id) : Option Id :=
  let matching := subscriptions.filter fun w => w.url = d.url
  if matching.isEmpty then none else (pick d.id matching).map Subscription.id

def streamOf (d : Delivery Id) : Option Id × Option Text :=
  (subscriptionOf pick subscriptions d, d.payload.bind Payload.botId)

def eventIdOf (d : Delivery Id) : Text := (d.payload.bind Payload.eventId).getD (text d.id)

/-- A delivery before it is numbered. -/
def filledRow (d : Delivery Id) : PilotDelivery Id :=
  { fillNulls { toDelivery := d } with
    subscriptionId := subscriptionOf pick subscriptions d
    eventId := some (eventIdOf text d) }

theorem setSubscription_eq {row : PilotDelivery Id} (h : row.subscriptionId = none) :
    setSubscription pick subscriptions row =
      { row with subscriptionId := subscriptionOf pick subscriptions row.toDelivery } := by
  unfold setSubscription subscriptionOf
  cases hempty : (subscriptions.filter fun w => w.url = row.url).isEmpty with
  | true => simp [hempty, ← h]
  | false => simp [hempty, h]

theorem filledRow_eq (d : Delivery Id) :
    setEventId text (setSubscription pick subscriptions (fillNulls { toDelivery := d })) =
      filledRow text pick subscriptions d := by
  have hevent : (some (d.payload.getD {})).bind Payload.eventId =
      d.payload.bind Payload.eventId := by
    cases d.payload <;> rfl
  rw [setSubscription_eq pick subscriptions rfl]
  simp only [setEventId, filledRow, eventIdOf, fillNulls, hevent]
  rfl

theorem filledRow_stream (d : Delivery Id) :
    (filledRow text pick subscriptions d).stream = streamOf pick subscriptions d := by
  have hbot : (some (d.payload.getD {})).bind Payload.botId = d.payload.bind Payload.botId := by
    cases d.payload <;> rfl
  exact congrArg (Prod.mk (subscriptionOf pick subscriptions d)) hbot

variable (deliveries : List (Delivery Id))

def filledRows : List (PilotDelivery Id) := deliveries.map (filledRow text pick subscriptions)

theorem filledRows_keys (h : (deliveries.map Delivery.id).Nodup) :
    ((filledRows text pick subscriptions deliveries).map fun x => x.id).Nodup := by
  rw [filledRows, List.map_map]
  exact h

theorem filledRows_length (k : Option Id × Option Text) [DecidableEq Id] :
    ((filledRows text pick subscriptions deliveries).filter fun x => x.stream = k).length =
      (deliveries.filter fun d => streamOf pick subscriptions d = k).length := by
  rw [filledRows, List.filter_map, List.length_map]
  congr 1
  apply List.filter_congr
  intro d _
  simp only [Function.comp_apply, filledRow_stream]

variable [LinearOrder Id]

/-- The deliveries after the migration. -/
def finalRows : List (PilotDelivery Id) :=
  (filledRows text pick subscriptions deliveries).map
    (numberedRow (filledRows text pick subscriptions deliveries))

/-- The deliveries are migrated if every event identifier and every position fits its column. -/
theorem upgradeDeliveries_eq_some (h : (deliveries.map Delivery.id).Nodup)
    {rows : List (PilotDelivery Id)} :
    upgradeDeliveries text pick subscriptions deliveries = some rows ↔
      ((∀ d ∈ deliveries, (eventIdOf text d).length ≤ 64) ∧
        ∀ k, (deliveries.filter fun d => streamOf pick subscriptions d = k).length ≤ 2147483648) ∧
      rows = finalRows text pick subscriptions deliveries := by
  have hids := filledRows_keys text pick subscriptions deliveries h
  have hnodup := List.Nodup.of_map _ hids
  have hrows : (((addDeliveryColumns deliveries).map fillNulls).map
      (setSubscription pick subscriptions)).map (setEventId text) =
        filledRows text pick subscriptions deliveries := by
    rw [addDeliveryColumns, List.map_map, List.map_map, List.map_map]
    exact List.map_congr_left fun d _ => filledRow_eq text pick subscriptions d
  have hfinal : (filledRows text pick subscriptions deliveries).map
      (setSequence (rankedDeliveries (filledRows text pick subscriptions deliveries))) =
        finalRows text pick subscriptions deliveries := setSequence_rows hids
  have hevents : ((filledRows text pick subscriptions deliveries).all
      fun d => varchar 64 d.eventId) = true ↔
        ∀ d ∈ deliveries, (eventIdOf text d).length ≤ 64 := by
    rw [List.all_eq_true, filledRows, List.forall_mem_map]
    apply forall₂_congr
    intro d _
    simp only [varchar, filledRow, Option.all_some, decide_eq_true_eq]
  have hpositions : ((finalRows text pick subscriptions deliveries).all
      fun d => d.sequence < 2147483648) = true ↔
        ∀ k,
          (deliveries.filter fun d => streamOf pick subscriptions d = k).length ≤ 2147483648 := by
    rw [List.all_eq_true, finalRows, List.forall_mem_map]
    simp only [decide_eq_true_eq, numbers_fit hnodup, filledRows_length]
  have hunique : uniqueIndex PilotDelivery.streamEntry
      (finalRows text pick subscriptions deliveries) = true := uniqueIndex_numbered hids
  unfold upgradeDeliveries
  simp only [update_eq, hrows]
  by_cases hall : ∀ d ∈ deliveries, (eventIdOf text d).length ≤ 64
  · rw [if_pos (hevents.mpr hall)]
    simp only [Option.bind_eq_bind, Option.bind_some, hfinal]
    by_cases hsizes : ∀ k,
        (deliveries.filter fun d => streamOf pick subscriptions d = k).length ≤ 2147483648
    · rw [if_pos (hpositions.mpr hsizes)]
      simp only [Option.bind_some, hunique, if_true, Option.some.injEq]
      exact ⟨fun hsame => ⟨⟨hall, hsizes⟩, hsame.symm⟩, fun hboth => hboth.2.symm⟩
    · rw [if_neg (mt hpositions.mp hsizes)]
      exact ⟨fun hnone => (nomatch hnone), fun hboth => absurd hboth.1.2 hsizes⟩
  · rw [if_neg (mt hevents.mp hall)]
    exact ⟨fun hnone => (nomatch hnone), fun hboth => absurd hboth.1.1 hall⟩

end deliveries

end Fakery.Migrations

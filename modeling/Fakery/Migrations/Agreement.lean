import Fakery.Migrations.Rows

/-! When the tables after the migration are those that the application expects. -/
namespace Fakery.Migrations
open Fakery.Meetings Fakery.Windows

section codes

variable {Id : Type} {admits : Text → Bool} {b : BotRow Id}

/-- The key that the application computes. -/
def keyOf (admits : Text → Bool) (url : Text) : Option Text :=
  match normalizeMeetingUrl admits url with
  | .ok r => some r.2
  | .error _ => none

/-- The text between the host and the next delimiter. -/
def codeOf (url : Text) : Text := (url.drop site.length).takeWhile (!delimiter ·)

theorem sqlCode_eq (h : site <+: b.meetingUrl) : sqlCode b.meetingUrl = codeOf b.meetingUrl := by
  obtain ⟨rest, hrest⟩ := h
  rw [← hrest, sqlCode, withoutSite_append, codeOf, List.drop_left]
  rfl

theorem sqlKey_eq_keyOf_iff (hsite : site <+: b.meetingUrl)
    (h : ∃ r, normalizeMeetingUrl admits b.meetingUrl = .ok r) :
    some (sqlKey b.meetingUrl) = keyOf admits b.meetingUrl ↔ PlainCode (codeOf b.meetingUrl) := by
  obtain ⟨r, hr⟩ := h
  have hkey : keyOf admits b.meetingUrl = some r.2 := by rw [keyOf, hr]
  rw [← sqlCode_eq hsite, ← sqlKey_eq_iff hsite hr, hkey, Option.some.injEq]

end codes

section agreement

variable {Id : Type} [LinearOrder Id] {admits : Text → Bool} {tables : Tables Id}
  {text : Id → Text} {pick : Id → List (Subscription Id) → Option (Subscription Id)}

/-- What the application expects of the tables after the migration. -/
structure Agrees (admits : Text → Bool) (tables : Tables Id) (bots : List (PilotBot Id))
    (deliveries : List (PilotDelivery Id)) : Prop where
  sameBots : (bots.map fun b => (b.id, b.meetingUrl, b.createdAt)) =
    tables.bots.map fun b => (b.id, b.meetingUrl, b.createdAt)
  sameDeliveries : (deliveries.map fun d => (d.id, d.url, d.createdAt)) =
    tables.deliveries.map fun d => (d.id, d.url, d.createdAt)
  keys : ∀ b ∈ bots, b.meetingKey.isSome = true ∧ b.meetingKey = keyOf admits b.meetingUrl
  single : ∀ b ∈ bots, ∀ c ∈ bots, b.active = true → c.active = true →
    b.meetingKey = c.meetingKey → b.id = c.id
  earliest : ∀ b ∈ bots, b.active = true → b.toBotRow ∈ tables.bots ∧
    ∀ old ∈ tables.bots, old.active = true → keyOf admits old.meetingUrl = b.meetingKey →
      b.place ≤ old.place
  kept : ∀ old ∈ tables.bots, old.active = true → ∃ b ∈ bots, b.active = true ∧
    b.meetingKey = keyOf admits old.meetingUrl
  inactive : ∀ old ∈ tables.bots, old.active = false → ∀ b ∈ bots, b.id = old.id →
    b.status = old.status
  numbered : ∀ w b, (window PilotDelivery.stream PilotDelivery.place deliveries
    (some w, some b)).map PilotDelivery.sequence = List.range (window PilotDelivery.stream
      PilotDelivery.place deliveries (some w, some b)).length
  botIndex : uniqueIndex PilotBot.activeEntry bots = true
  deliveryIndex : uniqueIndex PilotDelivery.streamEntry deliveries = true

/-- The URLs that the tables may have. -/
def Accepted (admits : Text → Bool) (tables : Tables Id) : Prop :=
  ∀ b ∈ tables.bots, site <+: b.meetingUrl ∧ ∃ r, normalizeMeetingUrl admits b.meetingUrl = .ok r

/-- The bots whose code stands right behind the host, with nothing that is removed, and is not too
long for its column. -/
def PlainBots (tables : Tables Id) : Prop :=
  ∀ b ∈ tables.bots, PlainCode (codeOf b.meetingUrl) ∧ (codeOf b.meetingUrl).length ≤ 240

/-- The deliveries whose event identifiers and numbers fit their columns. -/
def FittingDeliveries (text : Id → Text)
    (pick : Id → List (Subscription Id) → Option (Subscription Id)) (tables : Tables Id) : Prop :=
  (∀ d ∈ tables.deliveries, (eventIdOf text d).length ≤ 64) ∧
    ∀ k, (tables.deliveries.filter fun d =>
      streamOf pick tables.subscriptions d = k).length ≤ 2147483648

theorem upgrade_eq_some (hurls : Accepted admits tables) {bots : List (PilotBot Id)}
    {deliveries : List (PilotDelivery Id)} :
    upgrade text pick tables = some (bots, deliveries) ↔
      ((∀ b ∈ tables.bots, (sqlCode b.meetingUrl).length ≤ 240) ∧
        bots = tables.bots.map (finalRow tables.bots)) ∧
      FittingDeliveries text pick tables ∧
        deliveries = finalRows text pick tables.subscriptions tables.deliveries := by
  have hsite : ∀ b ∈ tables.bots, site <+: b.meetingUrl := fun b hb => (hurls b hb).1
  unfold FittingDeliveries
  rw [← upgradeBots_eq_some tables.botsKey hsite,
    ← upgradeDeliveries_eq_some text pick tables.subscriptions tables.deliveries
      tables.deliveriesKey]
  unfold upgrade
  cases upgradeBots tables.bots with
  | none => simp
  | some rows =>
    cases upgradeDeliveries text pick tables.subscriptions tables.deliveries with
    | none => simp
    | some rows' => simp

section bots

variable {bots : List (BotRow Id)} {b c : BotRow Id}

/-- An active row of the new table is an old one that no active one of its meeting comes before. -/
theorem finalRow_earliest (h : (bots.map BotRow.id).Nodup) (hb : b ∈ bots)
    (ha : (finalRow bots b).active = true) (hc : c ∈ bots) (hac : c.active = true)
    (hkey : sqlKey c.meetingUrl = sqlKey b.meetingUrl) :
    finalRow bots b = keyedRow b ∧ b.place ≤ c.place := by
  obtain ⟨hab, hrank⟩ := (active_finalRow h hb).mp ha
  have hpart : (keyedRow c).meetingKey = (keyedRow b).meetingKey := congrArg some hkey
  have hnumber : rowNumber PilotBot.meetingKey (fun b => b.place) (activeRows bots)
      (keyedRow b) = 1 := hrank
  have hplace := rowNumber_eq_one (mem_activeRows.mpr ⟨hb, hab⟩) hnumber
    (mem_activeRows.mpr ⟨hc, hac⟩) hpart
  exact ⟨finalRow_kept h hb (Or.inr hrank), hplace⟩

/-- Every meeting with an active row keeps one. -/
theorem exists_active_finalRow (h : (bots.map BotRow.id).Nodup) (hc : c ∈ bots)
    (hac : c.active = true) : ∃ b ∈ bots, (finalRow bots b).active = true ∧
      sqlKey b.meetingUrl = sqlKey c.meetingUrl := by
  have hmem : keyedRow c ∈ activeRows bots := mem_activeRows.mpr ⟨hc, hac⟩
  have hfirst : ∃ y ∈ activeRows bots, y.meetingKey = (keyedRow c).meetingKey ∧
      rowNumber PilotBot.meetingKey (fun b => b.place) (activeRows bots) y = 1 :=
    exists_rowNumber_eq_one hmem
  obtain ⟨row, hrow, hkey, hrank⟩ := hfirst
  obtain ⟨b, hb, rfl⟩ := List.mem_map.mp (List.mem_filter.mp hrow).1
  have hab := (mem_activeRows.mp hrow).2
  exact ⟨b, hb, (active_finalRow h hb).mpr ⟨hab, hrank⟩, Option.some.inj hkey⟩

end bots

theorem agrees_of_keys
    (hkeys : ∀ b ∈ tables.bots, some (sqlKey b.meetingUrl) = keyOf admits b.meetingUrl) :
    Agrees admits tables (tables.bots.map (finalRow tables.bots))
      (finalRows text pick tables.subscriptions tables.deliveries) := by
  have hbots := tables.botsKey
  have hcolumns := finalRow_columns tables.bots
  have hids := filledRows_keys text pick tables.subscriptions tables.deliveries
    tables.deliveriesKey
  constructor
  · rw [List.map_map]
    apply List.map_congr_left
    intro b _
    simp only [Function.comp_apply, (hcolumns b).1, (hcolumns b).2.1, (hcolumns b).2.2.1]
  · rw [finalRows, filledRows, List.map_map, List.map_map]
    rfl
  · rw [List.forall_mem_map]
    intro b hb
    rw [(hcolumns b).2.2.2.1, (hcolumns b).2.1]
    exact ⟨rfl, hkeys b hb⟩
  · simp only [List.forall_mem_map]
    intro b hb c hc hab hac hkey
    rw [(hcolumns b).2.2.2.1, (hcolumns c).2.2.2.1] at hkey
    rw [finalRow_unique hbots hb hc hab hac (Option.some.inj hkey)]
  · rw [List.forall_mem_map]
    intro b hb hab
    have hself := finalRow_earliest hbots hb hab hb ((active_finalRow hbots hb).mp hab).1 rfl
    rw [hself.1]
    refine ⟨hb, fun old hold haold hkey => ?_⟩
    rw [← hkeys old hold] at hkey
    exact (finalRow_earliest hbots hb hab hold haold (Option.some.inj hkey)).2
  · intro old hold haold
    obtain ⟨b, hb, hab, hkey⟩ := exists_active_finalRow hbots hold haold
    refine ⟨finalRow tables.bots b, List.mem_map_of_mem hb, hab, ?_⟩
    rw [(hcolumns b).2.2.2.1, hkey]
    exact hkeys old hold
  · intro old hold haold
    rw [List.forall_mem_map]
    intro b hb hid
    have hsame : b = old :=
      List.inj_on_of_nodup_map hbots hb hold ((hcolumns b).1.symm.trans hid)
    rw [hsame, finalRow_kept hbots hold (Or.inl haold)]
    rfl
  · intro w b
    exact window_sequences (List.Nodup.of_map _ hids) (some w, some b)
  · exact activeIndex_finalRow hbots
  · exact uniqueIndex_numbered hids

/-- The migration succeeds with tables that the application agrees with if the bots are plain and
the deliveries fit, and only then. -/
theorem migration_agrees_iff (admits : Text → Bool) (text : Id → Text)
    (pick : Id → List (Subscription Id) → Option (Subscription Id)) (tables : Tables Id)
    (hurls : Accepted admits tables) :
    (∃ bots deliveries, upgrade text pick tables = some (bots, deliveries) ∧
      Agrees admits tables bots deliveries) ↔
      PlainBots tables ∧ FittingDeliveries text pick tables := by
  constructor
  · rintro ⟨bots, deliveries, hupgrade, hagrees⟩
    obtain ⟨⟨hshort, hbots⟩, hfitting, -⟩ := (upgrade_eq_some hurls).mp hupgrade
    refine ⟨fun b hb => ?_, hfitting⟩
    have hcolumns := finalRow_columns tables.bots b
    have hkey := (hagrees.keys (finalRow tables.bots b) (hbots ▸ List.mem_map_of_mem hb)).2
    rw [hcolumns.2.2.2.1, hcolumns.2.1] at hkey
    rw [← sqlCode_eq (hurls b hb).1]
    have hplain := (sqlKey_eq_keyOf_iff (hurls b hb).1 (hurls b hb).2).mp hkey
    rw [← sqlCode_eq (hurls b hb).1] at hplain
    exact ⟨hplain, hshort b hb⟩
  · rintro ⟨hplain, hfitting⟩
    have hshort : ∀ b ∈ tables.bots, (sqlCode b.meetingUrl).length ≤ 240 := by
      intro b hb
      rw [sqlCode_eq (hurls b hb).1]
      exact (hplain b hb).2
    have hkeys : ∀ b ∈ tables.bots, some (sqlKey b.meetingUrl) = keyOf admits b.meetingUrl :=
      fun b hb => (sqlKey_eq_keyOf_iff (hurls b hb).1 (hurls b hb).2).mpr (hplain b hb).1
    exact ⟨_, _, (upgrade_eq_some hurls).mpr ⟨⟨hshort, rfl⟩, hfitting, rfl⟩,
      agrees_of_keys hkeys⟩

end agreement

section inputs

/-- One bot and one delivery. -/
def tablesOf (url : Text) : Tables ℕ where
  bots := [⟨1, url, "queued", none, 0⟩]
  deliveries := [⟨1, https, none, none, 0⟩]
  subscriptions := []
  botsKey := List.nodup_singleton 1
  deliveriesKey := List.nodup_singleton 1

def digits (n : ℕ) : Text := (toString n).toList

def statusOf (b : Text) (event : Text) : Option Payload := some ⟨some b, some event⟩

/-- Three runs of one meeting, two of them active, and the deliveries of two streams. -/
def crowded : Tables ℕ where
  bots := [⟨2, site ++ someCode, "recording", none, 5⟩, ⟨1, site ++ someCode, "queued", none, 3⟩,
    ⟨3, site ++ someCode, "completed", none, 0⟩]
  deliveries := [⟨4, https, statusOf ['a'] ['x'], some 2, 7⟩, ⟨2, https, statusOf ['a'] ['y'], none, 7⟩,
    ⟨3, https, statusOf ['a'] ['z'], none, 6⟩, ⟨1, https, statusOf ['b'] ['x'], none, 6⟩]
  subscriptions := [⟨9, https⟩]
  botsKey := by decide
  deliveriesKey := by decide

/-- URLs in normal form. -/
theorem crowded_migrates : ∃ bots deliveries,
    upgrade digits (fun _ => List.head?) crowded = some (bots, deliveries) ∧
      Agrees (fun _ => true) crowded bots deliveries := by
  have hplain : ∀ b ∈ crowded.bots, b.meetingUrl = site ++ someCode := by decide
  have hurl : site ++ someCode = (canonical someCode).1 := by simp [site, canonical, urlunsplit]
  have haccepted : Accepted (fun _ => true) crowded := by
    intro b hb
    rw [hplain b hb]
    refine ⟨List.prefix_append _ _, canonical someCode, ?_⟩
    rw [hurl]
    exact normalize_of_isCode isCode_someCode _
  apply (migration_agrees_iff (fun _ => true) digits (fun _ => List.head?) crowded haccepted).mpr
  constructor
  · intro b hb
    have hcode : codeOf (site ++ someCode) = someCode := by
      rw [codeOf, List.drop_left]
      decide
    have hall : (someCode.all fun c => !unsafeChar c) = true := by decide
    have hsafe : ∀ c ∈ someCode, unsafeChar c = false := by
      intro c hc
      simpa using List.all_eq_true.mp hall c hc
    rw [hplain b hb, hcode]
    exact ⟨⟨by decide, hsafe⟩, by decide⟩
  · constructor
    · decide
    · intro k
      have hle := List.length_filter_le (fun d : Delivery ℕ =>
        decide (streamOf (fun _ => List.head?) crowded.subscriptions d = k)) crowded.deliveries
      exact hle.trans (by decide)

/-- With one more slash the application takes the same code, and the migration none. -/
theorem slashed_disagrees :
    Accepted (fun _ => true) (tablesOf (site ++ '/' :: someCode)) ∧
      keyOf (fun _ => true) (site ++ '/' :: someCode) = some (meetHost ++ '/' :: someCode) ∧
      sqlKey (site ++ '/' :: someCode) = meetHost ++ ['/'] ∧
      ¬∃ bots deliveries, upgrade digits (fun _ => List.head?)
          (tablesOf (site ++ '/' :: someCode)) = some (bots, deliveries) ∧
        Agrees (fun _ => true) (tablesOf (site ++ '/' :: someCode)) bots deliveries := by
  have hvalid : ({ plainSpelling someCode with slashes := 1 } : Spelling).Valid := by
    have hplain := valid_plainSpelling isCode_someCode
    exact ⟨hplain.scheme, hplain.user, hplain.host, hplain.port, hplain.segment, hplain.rest⟩
  have htext : ({ plainSpelling someCode with slashes := 1 } : Spelling).text =
      site ++ '/' :: someCode := by
    simp [Spelling.text, Spelling.netloc, Spelling.path, plainSpelling, site]
  have hn := hvalid.normalize fun _ => true
  rw [htext] at hn
  have hlower : lower someCode = someCode := lower_of_isCode isCode_someCode
  have hkey : keyOf (fun _ => true) (site ++ '/' :: someCode) =
      some (meetHost ++ '/' :: someCode) := by
    rw [keyOf, hn]
    simp only [plainSpelling, canonical, hlower]
  have hsql : sqlKey (site ++ '/' :: someCode) = meetHost ++ ['/'] := by
    rw [sqlKey, withoutSite_append]
    rfl
  have haccepted : Accepted (fun _ => true) (tablesOf (site ++ '/' :: someCode)) := by
    intro b hb
    obtain rfl := List.mem_singleton.mp hb
    exact ⟨List.prefix_append _ _, _, hn⟩
  refine ⟨haccepted, hkey, hsql, ?_⟩
  rintro ⟨bots, deliveries, hupgrade, hagrees⟩
  obtain ⟨⟨-, hbots⟩, -⟩ := (upgrade_eq_some haccepted).mp hupgrade
  have hmem : finalRow (tablesOf (site ++ '/' :: someCode)).bots
      ⟨1, site ++ '/' :: someCode, "queued", none, 0⟩ ∈ bots := by
    rw [hbots]
    exact List.mem_map_of_mem (List.mem_singleton.mpr rfl)
  have hsame := (hagrees.keys _ hmem).2
  have hcolumns := finalRow_columns (tablesOf (site ++ '/' :: someCode)).bots
    ⟨1, site ++ '/' :: someCode, "queued", none, 0⟩
  rw [hcolumns.2.2.2.1, hcolumns.2.1] at hsame
  dsimp only at hsame
  rw [hsql, hkey] at hsame
  revert hsame
  decide

end inputs

end Fakery.Migrations

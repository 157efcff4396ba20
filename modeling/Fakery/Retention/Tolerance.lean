import Fakery.Retention.Sweep
import Fakery.Sequential.Fallible
import Mathlib.Data.List.Basic

/-! The sweep over the objects and the rows of all bots, with nothing else going on. -/
namespace Fakery.Retention
open Fakery.Bots Fakery.Sequential Fakery.Storage

/-- `_bot_id_from_key` -/
def botIdFromKey : Key → ℕ
  | .recording bot => bot
  | .chunk bot _ => bot
  | .manifest bot => bot

/-- The rows, by identifier. Their URIs lead to objects of their own bot. -/
structure Rows where
  row : ℕ → Option BotRun
  recording : ∀ b run, row b = some run → ∀ uri ∈ run.recordingUri, uri.key = .recording b
  manifest : ∀ b run, row b = some run → ∀ uri ∈ run.checkpointManifestUri, uri.key = .manifest b

/-- What `recordings/` lists and what the rows say. `tried` are the keys that `blob.remove` was
called with, and `removed` those for which it did not raise. -/
structure Holdings where
  entries : List Entry
  rows : Rows
  tried : List Key := []
  removed : List Key := []

/-- Which calls raise, and the clock: at the start of the sweep and at each update of a row. -/
structure Outcomes where
  removeRaises : Key → Bool := fun _ => false
  updateRaises : Key → Bool := fun _ => false
  now : ℕ
  moment : Key → ℕ

/-- The transaction of `mark_expired` on a row. -/
def marked (key : Key) (moment : ℕ) (run : BotRun) : BotRun :=
  BotRun.flushed run moment (run.markExpired key)

theorem marked_recordingUri {key : Key} {moment : ℕ} {run : BotRun} :
    (marked key moment run).recordingUri = (run.markExpired key).recordingUri := by
  unfold marked BotRun.flushed
  split_ifs with h
  · rw [h]
  · rfl

theorem marked_checkpointManifestUri {key : Key} {moment : ℕ} {run : BotRun} :
    (marked key moment run).checkpointManifestUri =
      (run.markExpired key).checkpointManifestUri := by
  unfold marked BotRun.flushed
  split_ifs with h
  · rw [h]
  · rfl

/-- A mark only takes URIs away, and that of the object it is for. -/
theorem mem_recordingUri_marked {key : Key} {moment : ℕ} {run : BotRun} {uri : Uri}
    (h : uri ∈ (marked key moment run).recordingUri) :
    uri ∈ run.recordingUri ∧ ∀ b, key ≠ .recording b := by
  rw [marked_recordingUri] at h
  cases key with
  | recording b => cases h
  | chunk b n => exact ⟨h, nofun⟩
  | manifest b => exact ⟨h, nofun⟩

theorem mem_checkpointManifestUri_marked {key : Key} {moment : ℕ} {run : BotRun} {uri : Uri}
    (h : uri ∈ (marked key moment run).checkpointManifestUri) :
    uri ∈ run.checkpointManifestUri ∧ ∀ b, key ≠ .manifest b := by
  rw [marked_checkpointManifestUri] at h
  cases key with
  | recording b => exact ⟨h, nofun⟩
  | chunk b n => exact ⟨h, nofun⟩
  | manifest b => cases h

theorem row_update {rows : ℕ → Option BotRun} {bot b : ℕ} {f : BotRun → BotRun} {run : BotRun}
    (h : Function.update rows bot ((rows bot).map f) b = some run) :
    b ≠ bot ∧ rows b = some run ∨ b = bot ∧ ∃ loaded, rows b = some loaded ∧ run = f loaded := by
  by_cases hb : b = bot
  · subst hb
    rw [Function.update_self] at h
    obtain ⟨loaded, hl, rfl⟩ := Option.map_eq_some_iff.mp h
    exact Or.inr ⟨rfl, loaded, hl, rfl⟩
  · rw [Function.update_of_ne hb] at h
    exact Or.inl ⟨hb, h⟩

/-- A key whose bot has no row is passed over. -/
def Rows.mark (rows : Rows) (key : Key) (moment : ℕ) : Rows where
  row := Function.update rows.row (botIdFromKey key)
    ((rows.row (botIdFromKey key)).map (marked key moment))
  recording b run h uri hu := by
    rcases row_update h with ⟨-, hr⟩ | ⟨-, loaded, hl, rfl⟩
    · exact rows.recording b run hr uri hu
    · exact rows.recording b loaded hl uri (mem_recordingUri_marked hu).1
  manifest b run h uri hu := by
    rcases row_update h with ⟨-, hr⟩ | ⟨-, loaded, hl, rfl⟩
    · exact rows.manifest b run hr uri hu
    · exact rows.manifest b loaded hl uri (mem_checkpointManifestUri_marked hu).1

namespace Holdings

abbrev Act := Fallible Holdings Unit

variable (settings : Settings) (o : Outcomes)

def remove (key : Key) : Act Unit := do
  Fallible.update fun s => { s with tried := s.tried ++ [key] }
  if o.removeRaises key then Fallible.raise ()
  else Fallible.update fun s =>
    { s with entries := s.entries.filter (·.key ≠ key), removed := s.removed ++ [key] }

def markExpired (key : Key) : Act Unit :=
  if o.updateRaises key then Fallible.raise ()
  else Fallible.update fun s => { s with rows := s.rows.mark key (o.moment key) }

/-- `expires_at` is read once, before the sweep. -/
def expiryForKey (rows : Rows) (key : Key) : Option ℕ :=
  (rows.row (botIdFromKey key)).bind BotRun.recordingExpiresAt

def sweepEach (expiry : Key → Option ℕ) : List Entry → Summary → Act Summary
  | [], n => pure n
  | entry :: entries, n => do
    let n := { n with scanned := n.scanned + 1 }
    if isExpired settings o.now (expiry entry.key) entry then
      if settings.dryRun then
        sweepEach expiry entries
          { n with wouldDelete := n.wouldDelete + 1, freedBytes := n.freedBytes + entry.size }
      else do
        let removed ← (do remove o entry.key; pure true : Act Bool).except fun _ => pure false
        if removed then do
          markExpired o entry.key
          sweepEach expiry entries
            { n with deleted := n.deleted + 1, freedBytes := n.freedBytes + entry.size }
        else sweepEach expiry entries { n with failed := n.failed + 1 }
    else sweepEach expiry entries { n with kept := n.kept + 1 }

def sweep : Act Summary := do
  let rows ← Fallible.read Holdings.rows
  let entries ← Fallible.read Holdings.entries
  sweepEach settings o (expiryForKey rows) entries {}

section accounts

variable (s : Holdings)

def totalSize : List Entry → ℕ
  | [] => 0
  | entry :: entries => entry.size + totalSize entries

/-- The listed objects whose expiry has passed. -/
def expiredEntries (expiry : Key → Option ℕ) (entries : List Entry) : List Entry :=
  entries.filter fun entry => isExpired settings o.now (expiry entry.key) entry

def freed (expiry : Key → Option ℕ) (entries : List Entry) : ℕ :=
  totalSize ((expiredEntries settings o expiry entries).filter fun entry =>
    settings.dryRun || !o.removeRaises entry.key)

/-- Every object of the listing is dealt with as its expiry says, and counted. -/
structure Complete (n : Summary) (s' : Holdings) : Prop where
  scanned : n.scanned = s.entries.length
  counted : n.scanned = n.deleted + n.wouldDelete + n.kept + n.failed
  tried : s'.tried = s.tried ++ if settings.dryRun then []
    else (expiredEntries settings o (expiryForKey s.rows) s.entries).map Entry.key
  freedBytes : n.freedBytes = freed settings o (expiryForKey s.rows) s.entries

/-- No row leads to an object that was removed. -/
def Consistent : Prop :=
  ∀ b run, s.rows.row b = some run → (∀ uri ∈ run.recordingUri, uri.key ∉ s.removed) ∧
    ∀ uri ∈ run.checkpointManifestUri, uri.key ∉ s.removed

/-- The sweep is complete, and a later one without errors leaves no dangling URI. -/
def Tolerant : Prop :=
  (∃ n s', sweep settings o s = (.ok n, s') ∧ Complete settings o s n s') ∧
    ∀ settings' now moment, Consistent
      (sweep settings' { now, moment } (sweep settings o s).2).2

/-- The row of every object that is removed is updated without an error. -/
def Updates (expiry : Key → Option ℕ) (entries : List Entry) : Prop :=
  settings.dryRun = true ∨ ∀ entry ∈ expiredEntries settings o expiry entries,
    o.removeRaises entry.key = false → o.updateRaises entry.key = false

end accounts

variable {settings o} {s : Holdings} {key : Key} {expiry : Key → Option ℕ} {entries : List Entry}
  {n : Summary}

theorem totalSize_append {xs ys : List Entry} :
    totalSize (xs ++ ys) = totalSize xs + totalSize ys := by
  induction xs with
  | nil => simp [totalSize]
  | cons x xs ih => simp [totalSize, ih, Nat.add_assoc]

/-- The store after a call of `blob.remove`. -/
def attempted (o : Outcomes) (key : Key) (s : Holdings) : Holdings :=
  if o.removeRaises key then { s with tried := s.tried ++ [key] }
  else { s with
    entries := s.entries.filter (·.key ≠ key)
    tried := s.tried ++ [key]
    removed := s.removed ++ [key] }

theorem remove_eq : ((do remove o key; pure true : Act Bool).except fun _ => pure false) s =
    (.ok (!o.removeRaises key), s.attempted o key) := by
  unfold attempted
  cases h : o.removeRaises key <;>
    simp [remove, h, bind, Fallible.update, Fallible.raise, Fallible.except, pure]

theorem tried_attempted : (s.attempted o key).tried = s.tried ++ [key] := by
  unfold attempted
  split_ifs <;> rfl

theorem Consistent.attempted (h : s.Consistent) (hr : o.removeRaises key = true) :
    (s.attempted o key).Consistent := by
  rw [Holdings.attempted, if_pos hr]
  exact h

/-- With its mark, a removal leaves no URI of the object behind. -/
theorem Consistent.marked (h : s.Consistent) (hr : o.removeRaises key = false) (moment : ℕ) :
    Consistent { s.attempted o key with rows := s.rows.mark key moment } := by
  have hremoved : (s.attempted o key).removed = s.removed ++ [key] := by
    rw [Holdings.attempted, hr]
    rfl
  intro b run hrow
  simp only [hremoved, List.mem_append, List.mem_singleton, not_or]
  have hrecording := (s.rows.mark key moment).recording b run hrow
  have hmanifest := (s.rows.mark key moment).manifest b run hrow
  rcases row_update hrow with ⟨hb, hl⟩ | ⟨rfl, loaded, hl, rfl⟩
  · obtain ⟨hrec, hman⟩ := h b run hl
    refine ⟨fun uri hu => ⟨hrec uri hu, ?_⟩, fun uri hu => ⟨hman uri hu, ?_⟩⟩
    · intro hk
      rw [hrecording uri hu] at hk
      exact hb (by rw [← hk]; rfl)
    · intro hk
      rw [hmanifest uri hu] at hk
      exact hb (by rw [← hk]; rfl)
  · obtain ⟨hrec, hman⟩ := h _ loaded hl
    refine ⟨fun uri hu => ?_, fun uri hu => ?_⟩
    · obtain ⟨hu', hne⟩ := mem_recordingUri_marked hu
      refine ⟨hrec uri hu', fun hk => ?_⟩
      rw [hrecording uri hu] at hk
      exact hne _ hk.symm
    · obtain ⟨hu', hne⟩ := mem_checkpointManifestUri_marked hu
      refine ⟨hman uri hu', fun hk => ?_⟩
      rw [hmanifest uri hu] at hk
      exact hne _ hk.symm

theorem markExpired_ok (h : o.updateRaises key = false) :
    markExpired o key s = (.ok (), { s with rows := s.rows.mark key (o.moment key) }) := by
  simp [markExpired, h, Fallible.update]

theorem markExpired_error (h : o.updateRaises key = true) :
    markExpired o key s = (.error (), s) := by
  simp [markExpired, h, Fallible.raise]

section loop

variable {entry : Entry}

theorem sweepEach_kept (h : isExpired settings o.now (expiry entry.key) entry = false) :
    sweepEach settings o expiry (entry :: entries) n = sweepEach settings o expiry entries
      { n with scanned := n.scanned + 1, kept := n.kept + 1 } := by
  simp only [sweepEach, h, Bool.false_eq_true, if_false]

theorem sweepEach_dry (h : isExpired settings o.now (expiry entry.key) entry = true)
    (hd : settings.dryRun = true) : sweepEach settings o expiry (entry :: entries) n =
      sweepEach settings o expiry entries { n with
        scanned := n.scanned + 1
        wouldDelete := n.wouldDelete + 1
        freedBytes := n.freedBytes + entry.size } := by
  simp only [sweepEach, h, hd, if_true]

theorem sweepEach_removes (h : isExpired settings o.now (expiry entry.key) entry = true)
    (hd : settings.dryRun = false) : sweepEach settings o expiry (entry :: entries) n s =
      if o.removeRaises entry.key then
        sweepEach settings o expiry entries
          { n with scanned := n.scanned + 1, failed := n.failed + 1 } (s.attempted o entry.key)
      else (do
        markExpired o entry.key
        sweepEach settings o expiry entries { n with
          scanned := n.scanned + 1
          deleted := n.deleted + 1
          freedBytes := n.freedBytes + entry.size }) (s.attempted o entry.key) := by
  simp only [sweepEach, h, hd, Bool.false_eq_true, if_false, if_true]
  rw [Fallible.bind_ok remove_eq]
  cases o.removeRaises entry.key <;> rfl

/-- What a part of the sweep that does not raise has done. -/
structure Swept (settings : Settings) (o : Outcomes) (expiry : Key → Option ℕ)
    (entries : List Entry) (n : Summary) (s : Holdings) (n' : Summary) (s' : Holdings) :
    Prop where
  scanned : n'.scanned = n.scanned + entries.length
  counted : n'.deleted + n'.wouldDelete + n'.kept + n'.failed =
    n.deleted + n.wouldDelete + n.kept + n.failed + entries.length
  tried : s'.tried = s.tried ++ if settings.dryRun then []
    else (expiredEntries settings o expiry entries).map Entry.key
  freedBytes : n'.freedBytes = n.freedBytes + freed settings o expiry entries
  consistent : s.Consistent → s'.Consistent

theorem expiredEntries_append {xs ys : List Entry} :
    expiredEntries settings o expiry (xs ++ ys) =
      expiredEntries settings o expiry xs ++ expiredEntries settings o expiry ys :=
  List.filter_append ..

theorem Swept.append {xs ys : List Entry} {n₁ n₂ : Summary} {s₁ s₂ : Holdings}
    (h : Swept settings o expiry xs n s n₁ s₁) (h' : Swept settings o expiry ys n₁ s₁ n₂ s₂) :
    Swept settings o expiry (xs ++ ys) n s n₂ s₂ := by
  have hscanned := h.scanned
  have hscanned' := h'.scanned
  have hcounted := h.counted
  have hcounted' := h'.counted
  constructor
  · rw [List.length_append]
    omega
  · rw [List.length_append]
    omega
  · rw [h'.tried, h.tried, List.append_assoc, expiredEntries_append]
    cases settings.dryRun <;> simp
  · rw [h'.freedBytes, h.freedBytes, freed, freed, freed, expiredEntries_append]
    simp [totalSize_append, Nat.add_assoc]
  · exact fun hc => h'.consistent (h.consistent hc)

/-- An entry whose row is updated, where it has to be, is dealt with. -/
theorem sweepEach_step (h : Updates settings o expiry [entry]) : ∃ n₁ s₁,
    (∀ rest, sweepEach settings o expiry (entry :: rest) n s =
      sweepEach settings o expiry rest n₁ s₁) ∧
      Swept settings o expiry [entry] n s n₁ s₁ := by
  cases hx : isExpired settings o.now (expiry entry.key) entry with
  | false =>
    have hnone : expiredEntries settings o expiry [entry] = [] := by simp [expiredEntries, hx]
    refine ⟨_, s, fun rest => by rw [sweepEach_kept hx], ?_⟩
    constructor <;> simp [freed, hnone, totalSize]
    omega
  | true =>
    have hone : expiredEntries settings o expiry [entry] = [entry] := by
      simp [expiredEntries, hx]
    cases hd : settings.dryRun with
    | true =>
      refine ⟨_, s, fun rest => by rw [sweepEach_dry hx hd], ?_⟩
      constructor <;> simp [freed, hone, hd, totalSize]
      omega
    | false =>
      cases hr : o.removeRaises entry.key with
      | true =>
        refine ⟨_, s.attempted o entry.key,
          fun rest => by rw [sweepEach_removes hx hd, if_pos hr], ?_⟩
        constructor
        · rfl
        · simp
          omega
        · simp [tried_attempted, hone, hd]
        · simp [freed, hone, hd, hr, totalSize]
        · exact fun hc => hc.attempted hr
      | false =>
        have hok : o.updateRaises entry.key = false := by
          rcases h with h | h
          · cases h.symm.trans hd
          · exact h entry (by rw [hone]; exact List.mem_singleton_self entry) hr
        have hrows : (s.attempted o entry.key).rows = s.rows := by simp [attempted, hr]
        refine ⟨{ n with
            scanned := n.scanned + 1
            deleted := n.deleted + 1
            freedBytes := n.freedBytes + entry.size },
          { s.attempted o entry.key with rows := s.rows.mark entry.key (o.moment entry.key) },
          fun rest => ?_, ?_⟩
        · rw [sweepEach_removes hx hd, hr, ← hrows]
          exact Fallible.bind_ok (markExpired_ok hok)
        · constructor
          · rfl
          · simp
            omega
          · simp [tried_attempted, hone, hd]
          · simp [freed, hone, hd, hr, totalSize]
          · exact fun hc => hc.marked hr _

/-- One whose row cannot be updated after its object is gone ends the sweep. -/
theorem sweepEach_error (h : ¬Updates settings o expiry [entry]) (rest : List Entry) :
    ∃ s', sweepEach settings o expiry (entry :: rest) n s = (.error (), s') := by
  unfold Updates at h
  push Not at h
  obtain ⟨hd, other, hmem, hr, hu⟩ := h
  obtain ⟨hother, hx⟩ := List.mem_filter.mp hmem
  obtain rfl := List.mem_singleton.mp hother
  rw [sweepEach_removes hx ((Bool.not_eq_true _).mp hd), hr]
  exact ⟨_, Fallible.bind_error (markExpired_error ((Bool.not_eq_false _).mp hu))⟩

theorem updates_cons : Updates settings o expiry (entry :: entries) ↔
    Updates settings o expiry [entry] ∧ Updates settings o expiry entries := by
  have happend : expiredEntries settings o expiry (entry :: entries) =
      expiredEntries settings o expiry [entry] ++ expiredEntries settings o expiry entries := by
    rw [← expiredEntries_append, List.singleton_append]
  unfold Updates
  rw [happend]
  cases settings.dryRun <;> simp [or_imp, forall_and]

theorem sweepEach_updates (h : Updates settings o expiry entries) :
    ∃ n' s', sweepEach settings o expiry entries n s = (.ok n', s') ∧
      Swept settings o expiry entries n s n' s' := by
  induction entries generalizing n s with
  | nil =>
    refine ⟨n, s, rfl, rfl, rfl, ?_, rfl, id⟩
    simp [expiredEntries]
  | cons entry entries ih =>
    obtain ⟨hone, hrest⟩ := updates_cons.mp h
    obtain ⟨n₁, s₁, hstep, hs₁⟩ := sweepEach_step (n := n) (s := s) hone
    obtain ⟨n', s', hrun, hs'⟩ := ih (n := n₁) (s := s₁) hrest
    exact ⟨n', s', (hstep entries).trans hrun, hs₁.append hs'⟩

theorem sweepEach_raises (h : ¬Updates settings o expiry entries) :
    ∃ s', sweepEach settings o expiry entries n s = (.error (), s') := by
  induction entries generalizing n s with
  | nil => exact absurd (Or.inr nofun) h
  | cons entry entries ih =>
    by_cases hone : Updates settings o expiry [entry]
    · obtain ⟨n₁, s₁, hstep, -⟩ := sweepEach_step (n := n) (s := s) hone
      rw [hstep]
      exact ih fun hrest => h (updates_cons.mpr ⟨hone, hrest⟩)
    · exact sweepEach_error hone entries

end loop

/-- A sweep of objects and rows of which nothing has been removed yet is tolerant exactly if it can
update the row of every object that it removes. -/
theorem tolerant_iff (settings : Settings) (o : Outcomes) (entries : List Entry) (rows : Rows) :
    Tolerant settings o { entries, rows } ↔ Updates settings o (expiryForKey rows) entries := by
  have hsweep : ∀ settings o (s : Holdings),
      sweep settings o s = sweepEach settings o (expiryForKey s.rows) s.entries {} s :=
    fun _ _ _ => rfl
  constructor
  · rintro ⟨⟨n, s', hrun, -⟩, -⟩
    by_contra hno
    obtain ⟨s'', herror⟩ := sweepEach_raises (n := {}) (s := { entries, rows }) hno
    rw [hsweep] at hrun
    cases hrun.symm.trans herror
  · intro h
    obtain ⟨n, s', hrun, hs⟩ := sweepEach_updates (n := {}) (s := { entries, rows }) h
    have hcounted := hs.counted
    have hscanned := hs.scanned
    refine ⟨⟨n, s', hrun, ⟨?_, ?_, hs.tried, ?_⟩⟩, fun settings' now moment => ?_⟩
    · simpa using hscanned
    · simp only [Nat.zero_add] at hcounted hscanned
      omega
    · simpa using hs.freedBytes
    · have hlater : Updates settings' { now, moment } (expiryForKey s'.rows) s'.entries :=
        Or.inr fun _ _ _ => rfl
      obtain ⟨n', s'', hrun', hs'⟩ := sweepEach_updates (n := {}) (s := s') hlater
      have hfirst : (sweep settings o { entries, rows }).2 = s' := by
        rw [hsweep, hrun]
      rw [hfirst, hsweep, hrun']
      exact hs'.consistent (hs.consistent fun _ _ _ => ⟨fun _ _ => List.not_mem_nil,
        fun _ _ => List.not_mem_nil⟩)

section interrupted

def storedRun (bot : ℕ) : BotRun :=
  { id := bot, meetingUrl := "https://meet.google.com/abc-defg-hij", meetingKey := "abc-defg-hij"
    idempotencyKey := none, displayName := none, status := .completed, createdAt := 0
    updatedAt := 0, recordingUri := some ⟨"twin", .recording bot⟩, recordingExpiresAt := some 10 }

/-- Two bots whose recordings have expired. -/
def storedRows : Rows where
  row b := if b = 7 ∨ b = 8 then some (storedRun b) else none
  recording b run h uri hu := by
    split_ifs at h
    cases h
    cases hu
    rfl
  manifest b run h uri hu := by
    split_ifs at h
    cases h
    cases hu

def storedEntries : List Entry := [⟨.recording 7, 100, 0⟩, ⟨.recording 8, 100, 0⟩]

/-- The row of the first one cannot be updated. -/
def interrupted : Outcomes where
  updateRaises key := key = .recording 7
  now := 20
  moment _ := 20

def live : Settings where
  retentionDays := 30
  dryRun := false

def stored : Holdings where
  entries := storedEntries
  rows := storedRows

/-- What is left by the interrupted sweep, and by a later one without errors. -/
def afterFirst : Holdings := (sweep live interrupted stored).2

def afterLater : Holdings := (sweep live { now := 30, moment := fun _ => 30 } afterFirst).2

/-- The second object is not looked at, and the URI of the first one is never cleared. -/
theorem not_tolerant : ¬Tolerant live interrupted stored ∧ afterFirst.tried = [.recording 7] ∧
    ¬afterLater.Consistent := by
  have hraises : (sweep live interrupted stored).1.toOption = none := by decide +kernel
  refine ⟨fun h => ?_, by decide +kernel, fun h => ?_⟩
  · obtain ⟨⟨n, s', hrun, -⟩, -⟩ := h
    rw [hrun] at hraises
    cases hraises
  · have hrow : (afterLater.rows.row 7).any fun run =>
        run.recordingUri = some ⟨"twin", .recording 7⟩ := by decide +kernel
    have hremoved : Key.recording 7 ∈ afterLater.removed := by decide +kernel
    obtain ⟨run, hrun, huri⟩ := (Option.any_eq_true _ _).mp hrow
    exact (h 7 run hrun).1 _ (of_decide_eq_true huri) hremoved

end interrupted

end Holdings

end Fakery.Retention

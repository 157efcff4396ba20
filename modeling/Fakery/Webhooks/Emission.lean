import Fakery.Webhooks.Outbox

/-! The emission of one event: its number follows the last one of its stream, which no other
transaction can extend while the subscription is locked. -/
namespace Fakery.Webhooks
open Fakery.Concurrent Fakery.Core Fakery.Postgres Fakery.Bots

variable {t u w b : ℕ} {k : Op} {i : Stmt} {c : ℕ} {s s' : Db}

/-- The number that the next event of `b` has to get. -/
def nextSequence (w t b : ℕ) (s : Db) : ℕ :=
  (ofBot b (outbox w s)).length + (ofBot b (drafts w t s)).length + 1

theorem stream_eq (w t b : ℕ) (s : Db) :
    s.stream t w b = ofBot b (outbox w s) ++ ofBot b (drafts w t s) := by
  unfold Db.stream ofBot outbox drafts
  rw [List.filter_append, List.filter_filter, List.filter_filter]
  congr 1 <;>
    · congr 1
      funext d
      rw [Bool.and_comm]

/-- The highest number of a stream without gaps is its length. -/
theorem highest_eq {ds : List WebhookDelivery} {n : ℕ}
    (h : sequences ds = List.range' 1 n) :
    ((Db.highest ds).map WebhookDelivery.sequence).getD 0 = n := by
  induction n generalizing ds with
  | zero =>
    cases List.map_eq_nil_iff.mp h
    rfl
  | succ n ih =>
    rw [List.range'_concat] at h
    obtain ⟨l, r, rfl, hl, hr⟩ := List.map_eq_append_iff.mp h
    obtain ⟨d, rfl, hd⟩ := List.map_eq_singleton_iff.mp hr
    have hbest := ih hl
    unfold Db.highest at hbest ⊢
    rw [List.foldl_append]
    generalize l.foldl _ none = best at hbest ⊢
    cases best with
    | none => simpa [Nat.add_comm] using hd
    | some e =>
      have he : e.sequence < d.sequence := by
        have : e.sequence = n := hbest
        omega
      simpa [he, Nat.add_comm] using hd

/-- What `storeEach` relies on while it goes through the subscriptions. -/
structure Emitting (w t : ℕ) (owed : List Payload) (s : Db) : Prop where
  balanced : Balanced w t owed s
  clean : Clean t s
  holds : s.subscriptionLock w = some t

variable {owed : List Payload}

theorem Emitting.rely (hr : (mirror w).rely t s s') (h : Emitting w t owed s) :
    Emitting w t owed s' ∧ nextSequence w t b s' = nextSequence w t b s := by
  obtain ⟨hl, ho⟩ := hr.lock h.holds
  refine ⟨⟨h.balanced.rely hr, h.clean.rely hr, hl⟩, ?_⟩
  unfold nextSequence drafts
  rw [ho, hr.session]

/-- Clock readings, fresh identifiers and reads of the outbox change nothing. -/
theorem wp_unchanged {α : Type} {f : Answer i → Txn α} {Q : Except TwinError α → Db → Prop}
    (hs : ∀ c s s' a, exec t i c s = some (s', a) → s' = s)
    (h : ∀ s', (mirror w).rely t s s' → Inv w s' → ∀ c a, exec t i c s' = some (s', a) →
      (mirror w).wp t k (f a).run Q s') :
    (mirror w).wp t k (perform i >>= f).run Q s := by
  refine wp_perform_bind.mpr fun s₁ hr hinv _ c s₂ a he => ?_
  cases hs c s₁ s₂ a he
  exact ⟨allowed_aside hinv (.refl t s₁) (.refl t s₁), h s₁ hr hinv c a he⟩

theorem drafts_addDelivery {d : WebhookDelivery} (hd : d.subscriptionId = w)
    (h : exec t (.addDelivery d) c s = some (s', ())) :
    drafts w t s' = drafts w t s ++ [d] := by
  obtain ⟨rfl, -⟩ := Prod.mk.inj (Option.some.inj h)
  simp [drafts, Db.setSession, hd]

theorem drafts_addDelivery_of_ne {d : WebhookDelivery} (hd : d.subscriptionId ≠ w)
    (h : exec t (.addDelivery d) c s = some (s', ())) : drafts w t s' = drafts w t s := by
  obtain ⟨rfl, -⟩ := Prod.mk.inj (Option.some.inj h)
  simp [drafts, Db.setSession, hd]

theorem sequences_concat {ds : List WebhookDelivery} {d : WebhookDelivery} {n : ℕ → ℕ}
    (hd : d.sequence = n d.payload.botId + (ofBot d.payload.botId ds).length + 1)
    (h : sequences (ofBot b ds) = List.range' (n b + 1) (ofBot b ds).length) :
    sequences (ofBot b (ds ++ [d])) =
      List.range' (n b + 1) (ofBot b (ds ++ [d])).length := by
  by_cases hb : d.payload.botId = b
  · have hds : ofBot b (ds ++ [d]) = ofBot b ds ++ [d] := by simp [ofBot, hb]
    subst hb
    rw [hds, List.length_append, List.length_singleton, List.range'_concat, ← h]
    simp only [sequences, List.map_append, List.map_cons, List.map_nil, hd]
    congr 2
    omega
  · have hds : ofBot b (ds ++ [d]) = ofBot b ds := by simp [ofBot, hb]
    rw [hds, h]

/-- Adding a draft is allowed to the holder of the lock, with the next number. -/
theorem allowed_addDelivery {d : WebhookDelivery} (hi : Inv w s)
    (hd : d.subscriptionId = w → s.subscriptionLock w = some t ∧
      d.sequence = nextSequence w t d.payload.botId s)
    (h : exec t (.addDelivery d) c s = some (s', ())) : (mirror w).Allowed t s s' := by
  have hf := (exec_touches (i := .addDelivery d) trivial h).toFrame
  have he : s' = s.setSession t
      { s.session t with deliveries := (s.session t).deliveries ++ [d] } :=
    (Prod.mk.inj (Option.some.inj h)).1.symm
  have hl : s'.subscriptionLock = s.subscriptionLock := by rw [he]; rfl
  have hn : s'.notes = s.notes := by rw [he]; rfl
  have ho := outbox_of_eq (w := w) hf.deliveries
  have hother : ∀ u, u ≠ t → drafts w u s' = drafts w u s := fun u hu => by
    unfold drafts
    rw [hf.session u hu]
  refine ⟨?_, fun u hu => ⟨hf.session u hu, fun b => by rw [hn], fun h => ⟨hl ▸ h, ho⟩⟩, trivial⟩
  by_cases hw : d.subscriptionId = w
  · have hdr := drafts_addDelivery hw h
    obtain ⟨hlock, hseq⟩ := hd hw
    constructor
    · rw [he]
      exact hi.subscribed
    · rw [he]
      exact hi.nodup
    · rw [ho, hf.statusLog, hf.segments, hn]
      exact hi.accounts
    · rw [ho]
      exact hi.numbered
    · intro u b
      by_cases hu : u = t
      · subst hu
        rw [hdr, ho]
        exact sequences_concat (n := fun b => (ofBot b (outbox w s)).length) hseq (hi.drafted u b)
      · rw [ho, hother u hu]
        exact hi.drafted u b
    · intro u hdu
      rw [hl]
      by_cases hu : u = t
      · exact hu ▸ hlock
      · exact hi.locked u (hother u hu ▸ hdu)
    · rw [hn]
      exact hi.noted
  · refine hi.of_eq (by rw [he]; rfl) hf.deliveries hf.statusLog hf.segments hn (fun u => ?_)
      fun _ h => hl ▸ h
    by_cases hu : u = t
    · exact hu ▸ drafts_addDelivery_of_ne hw h
    · exact hother u hu

theorem Emitting.add {d : WebhookDelivery}
    (h : Emitting w t ((if d.subscriptionId = w then [d.payload] else []) ++ owed) s)
    (he : exec t (.addDelivery d) c s = some (s', ())) : Emitting w t owed s' := by
  have hs : s' = s.setSession t
      { s.session t with deliveries := (s.session t).deliveries ++ [d] } :=
    (Prod.mk.inj (Option.some.inj he)).1.symm
  refine ⟨?_, ?_, by rw [hs]; exact h.holds⟩
  · have hdr : (drafts w t s').map WebhookDelivery.payload =
        (drafts w t s).map WebhookDelivery.payload ++
          if d.subscriptionId = w then [d.payload] else [] := by
      split_ifs with hw
      · rw [drafts_addDelivery hw he, List.map_append]
        rfl
      · rw [drafts_addDelivery_of_ne hw he, List.append_nil]
    have hx : (s'.session t).statuses = (s.session t).statuses := by simp [hs, Db.setSession]
    have hg : (s'.session t).segments = (s.session t).segments := by simp [hs, Db.setSession]
    have hn : s'.notes = s.notes := by rw [hs]; rfl
    unfold Balanced
    rw [hdr, List.append_assoc, hx, hg, hn]
    exact h.balanced
  · subst hs
    simpa [Clean, Db.setSession] using h.clean

theorem owed_cons (v : WebhookSubscription) (vs : List WebhookSubscription) (p : Payload)
    (hv : v.id ∉ vs.map WebhookSubscription.id) :
    (if w ∈ (v :: vs).map WebhookSubscription.id then [p] else []) =
      (if v.id = w then [p] else []) ++
        if w ∈ vs.map WebhookSubscription.id then [p] else [] := by
  by_cases hw : v.id = w
  · subst hw
    simp [hv]
  · simp [hw, Ne.symm hw]

theorem lastDelivery_next (hi : Inv w s) (t b : ℕ) :
    ((Db.highest (s.stream t w b)).map WebhookDelivery.sequence).getD 0 + 1 =
      nextSequence w t b s := by
  rw [stream_eq, highest_eq (n := (ofBot b (outbox w s)).length + (ofBot b (drafts w t s)).length)]
  · rfl
  · have h := hi.drafted t b
    unfold sequences at h ⊢
    rw [List.map_append, h, ← List.range'_append_1, Nat.add_comm _ 1]
    exact congrArg (· ++ _) (hi.numbered b)

/-- Going through the subscriptions, the transaction gives `w` the event that it owes. -/
theorem wp_storeEach {p : Payload} {now : ℕ} {ws : List WebhookSubscription}
    (hnd : (ws.map WebhookSubscription.id).Nodup)
    (h : Emitting w t (if w ∈ ws.map WebhookSubscription.id then [p] else []) s) :
    (mirror w).wp t k (storeEach p now ws).run (fun _ s' => Steady w t s') s := by
  induction ws generalizing s with
  | nil => exact ⟨h.balanced, h.clean⟩
  | cons v vs ih =>
    obtain ⟨hv, hnd⟩ := List.nodup_cons.mp hnd
    refine wp_unchanged (fun _ _ _ _ he => (Prod.mk.inj (Option.some.inj he)).1.symm)
      fun s₁ hr₁ hi₁ _ a₁ he₁ => ?_
    refine wp_unchanged (fun _ _ _ _ he => (Prod.mk.inj (Option.some.inj he)).1.symm)
      fun s₂ hr₂ _ _ a₂ _ => ?_
    refine wp_perform_bind.mpr fun s₃ hr₃ hi₃ _ c s₄ a he₄ => ?_
    obtain ⟨h₁, -⟩ := h.rely (b := p.botId) hr₁
    obtain ⟨h₃, hn⟩ := h₁.rely (b := p.botId) ((mirror w).rely_trans t hr₂ hr₃)
    have ha₁ := (Prod.mk.inj (Option.some.inj he₁)).2
    refine ⟨allowed_addDelivery hi₃ (fun hw => ⟨h₃.holds, ?_⟩) he₄, ih hnd ?_⟩
    · have hw : v.id = w := hw
      subst hw
      exact (ha₁ ▸ lastDelivery_next hi₁ t p.botId).trans hn.symm
    · rw [owed_cons v vs p hv] at h₃
      exact h₃.add he₄

theorem wp_storeInSession {p : Payload} (hb : Balanced w t [p] s) (hc : Clean t s) :
    (mirror w).wp t k (storeInSession p).run (fun _ s' => Steady w t s') s := by
  refine wp_perform_bind.mpr fun s₁ hr₁ hi₁ _ c s₂ ws he => ?_
  obtain ⟨hal, hl⟩ := allowed_lock hi₁ he
  obtain ⟨rfl, -, hs₂⟩ := lockSubscriptions_eq he
  have hb₁ := hb.rely hr₁
  have hc₁ := hc.rely hr₁
  have he : Emitting w t [p] s₂ := by
    subst hs₂
    exact ⟨hb₁, hc₁, hl⟩
  refine ⟨hal, wp_unchanged (fun _ _ _ _ he => (Prod.mk.inj (Option.some.inj he)).1.symm)
    fun s₃ hr₃ hi₃ _ now _ => ?_⟩
  refine wp_storeEach hi₁.nodup ?_
  rw [if_pos hi₁.subscribed]
  exact (he.rely (b := 0) hr₃).1

/-- After the write of a run, a segment or a note comes the emission of its event. -/
theorem wp_emit {α : Type} {f : Txn α} {p : ℕ → Payload} (hb : ∀ e, Balanced w t [p e] s)
    (hc : Clean t s) (hf : (mirror w).Keeps t k (Steady w t) f.run) :
    (mirror w).wp t k (do
      let eventId ← perform .uuid4
      storeInSession (p eventId)
      f : Txn α).run (fun _ s' => Steady w t s') s := by
  refine wp_unchanged (fun _ _ _ _ he => (Prod.mk.inj (Option.some.inj he)).1.symm)
    fun s₁ hr _ _ e _ => ?_
  refine Protocol.wp_task_bind.mpr
    (Protocol.wp_mono (wp_storeInSession ((hb e).rely hr) (hc.rely hr)) fun r s₂ h₂ => ?_)
  cases r with
  | ok _ => exact hf s₂ h₂
  | error e => exact h₂

theorem wp_statusChanged {τ : BotStatus} (hb : ∀ e, Balanced w t [.statusChanged b τ e] s)
    (hc : Clean t s) : (mirror w).wp t k (statusChanged b τ).run (fun _ s' => Steady w t s') s :=
  wp_unchanged (fun _ _ _ _ he => (Prod.mk.inj (Option.some.inj he)).1.symm)
    fun _ hr _ _ e _ => wp_storeInSession ((hb e).rely hr) (hc.rely hr)

end Fakery.Webhooks

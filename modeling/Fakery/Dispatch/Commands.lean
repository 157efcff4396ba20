import Fakery.Concurrent.History
import Fakery.Dispatch.Ordering

/-! Skip and replay beside the sender: which command on a row was the last to be committed, and who
may still write the row. -/
namespace Fakery.Dispatch
open Fakery.Bots Fakery.Concurrent WebhookDelivery

inductive Command where
  | skip | replay
deriving DecidableEq

/-- `command` is the last command committed on a row, and `posts` are the POSTs, by thread and row,
that have started since. A replay is over when one of these has finished. `tokens` are the lease
tokens drawn so far and by whom. -/
structure History where
  command : ℕ → Option Command := fun _ => none
  posts : List (ℕ × ℕ) := []
  tokens : List (ℕ × ℕ) := []

namespace History

variable (h : History)

def give (n : ℕ) (c : Option Command) : History :=
  { h with command := Function.update h.command n c, posts := h.posts.filter fun x => x.2 ≠ n }

/-- A commit that finds the row. The sender makes a row sent, dead or one to retry. -/
def updated (n : ℕ) (now : WebhookDelivery) : History :=
  match now.status with
  | .skipped => h.give n (some .skip)
  | .pending => h.give n (some .replay)
  | _ => h

def posting (t n : ℕ) : History := { h with posts := (t, n) :: h.posts }

def posted (t n : ℕ) : History :=
  if h.command n = some .replay ∧ (t, n) ∈ h.posts then h.give n none else h

end History

/-- No token is drawn twice. -/
def observe (t : ℕ) : Call → Outcome → Table → History → Option History
  | .uuid4, c, _, h =>
    if c.number ∈ h.tokens.map Prod.snd then none
    else some { h with tokens := (t, c.number) :: h.tokens }
  | .update n _ now, _, s, h => some (if (s.find n).isSome then h.updated n now else h)
  | .post item, _, _, h => some (h.posting t item.id)
  | .response n, _, _, h => some (h.posted t n)
  | _, _, _, h => some h

def commanded : Machine Call Answer Op (Table × History) Outcome World :=
  dispatch.observed observe

/-- A skipped row is skipped as long as it is there, and a replayed one is there and to be sent. -/
structure Respected (s : Table × History) : Prop where
  skip : ∀ n, s.2.command n = some .skip → ∀ d ∈ s.1.rows, d.id = n → d.status = .skipped
  replay : ∀ n, s.2.command n = some .replay →
    ∃ d ∈ s.1.rows, d.id = n ∧ (d.status = .pending ∨ d.status = .retry)

/-- The commit of a command finds the status and the lease token that were read, that of a sender
its own token, and a purge finds no row that is to be sent. -/
def Undisturbed (s : Table) : Call → Prop
  | .update n loaded now => ∀ d ∈ s.rows, d.id = n → d.leaseToken = loaded.leaseToken ∧
      (now.status = .pending ∨ now.status = .skipped → d.status = loaded.status)
  | .delete ids => ∀ d ∈ s.rows, d.id ∈ ids →
      d.status = .sent ∨ d.status = .dead ∨ d.status = .skipped
  | _ => True

def undisturbed : commanded.Condition where
  call _ _ i s := Undisturbed s.1 i

variable {t u : ℕ} {k : Op} {i : Call} {c : Outcome} {s s' : Table × History}
  {d item : WebhookDelivery} {n token : ℕ}

/-- Nothing is commanded on a row that carries the token. -/
def Spent (n token : ℕ) (s : Table × History) : Prop :=
  ∀ d ∈ s.1.rows, d.id = n → d.leaseToken = some token → s.2.command n = none

/-- Nothing but a replay after which the thread has started a POST of the row. -/
def Posting (t n token : ℕ) (s : Table × History) : Prop :=
  ∀ d ∈ s.1.rows, d.id = n → d.leaseToken = some token →
    s.2.command n = none ∨ s.2.command n = some .replay ∧ (t, n) ∈ s.2.posts

namespace Commands

structure Inv (s : Table × History) : Prop where
  skip : ∀ n, s.2.command n = some .skip →
    ∀ d ∈ s.1.rows, d.id = n → d.status = .skipped ∧ d.leaseToken = none
  replay : ∀ n, s.2.command n = some .replay →
    (∃ d ∈ s.1.rows, d.id = n) ∧ ∀ d ∈ s.1.rows, d.id = n → d.status = .pending
  emitted : ∀ n, s.2.command n ≠ none → n ∈ s.1.emitted.map fun e => e.row.id
  rows : ∀ d ∈ s.1.rows, d.id ∈ s.1.emitted.map fun e => e.row.id
  staged : ∀ f ∈ s.1.staged, f.row.leaseToken = none ∧
    f.row.id ∉ s.1.emitted.map fun e => e.row.id
  tokens : (s.2.tokens.map Prod.snd).Nodup

/-- A row that carries a token of the thread has carried it before, and is not commanded anew. -/
structure Rely (t : ℕ) (s s' : Table × History) : Prop where
  tokens : ∀ x ∈ s.2.tokens, x ∈ s'.2.tokens
  carried : ∀ n token, (t, token) ∈ s.2.tokens →
    ∀ d ∈ s'.1.rows, d.id = n → d.leaseToken = some token →
      (∃ x ∈ s.1.rows, x.id = n ∧ x.leaseToken = some token) ∧ (s'.2.command n = none ∨
        s'.2.command n = s.2.command n ∧ ((t, n) ∈ s.2.posts → (t, n) ∈ s'.2.posts))

theorem Rely.refl : Rely t s s :=
  ⟨fun _ => id, fun _ _ _ d hd hn ht => ⟨⟨d, hd, hn, ht⟩, Or.inr ⟨rfl, id⟩⟩⟩

theorem Rely.trans {s'' : Table × History} (h : Rely t s s') (h' : Rely t s' s'') :
    Rely t s s'' := by
  refine ⟨fun x hx => h'.tokens x (h.tokens x hx), fun n token hown d hd hn ht => ?_⟩
  obtain ⟨⟨x, hx, hxn, hxt⟩, hc'⟩ := h'.carried n token (h.tokens _ hown) d hd hn ht
  obtain ⟨hcarried, hc⟩ := h.carried n token hown x hx hxn hxt
  refine ⟨hcarried, ?_⟩
  rcases hc' with hc' | ⟨hc', hp'⟩
  · exact Or.inl hc'
  · rw [hc']
    exact hc.imp_right fun hc => ⟨hc.1, fun hp => hp' (hc.2 hp)⟩

theorem Rely.spent (h : Rely t s s') (hown : (t, token) ∈ s.2.tokens) (hs : Spent n token s) :
    Spent n token s' := by
  intro d hd hn ht
  obtain ⟨⟨x, hx, hxn, hxt⟩, hc | hc⟩ := h.carried n token hown d hd hn ht
  · exact hc
  · exact hc.1.trans (hs x hx hxn hxt)

theorem Rely.posting (h : Rely t s s') (hown : (t, token) ∈ s.2.tokens)
    (hs : Posting t n token s) : Posting t n token s' := by
  intro d hd hn ht
  obtain ⟨⟨x, hx, hxn, hxt⟩, hc | ⟨hc, hp⟩⟩ := h.carried n token hown d hd hn ht
  · exact Or.inl hc
  · rw [hc]
    exact (hs x hx hxn hxt).imp_right fun hr => ⟨hr.1, hp hr.2⟩

end Commands

def commanding : Protocol commanded where
  cond := undisturbed
  inv := Commands.Inv
  rely := Commands.Rely
  rely_refl _ _ := Commands.Rely.refl
  rely_trans _ _ _ _ h h' := h.trans h'

/-- What a thread has to know before a call. -/
def Entitled (t : ℕ) (s : Table × History) : Call → Prop
  | .update n loaded now => now.leaseToken = none ∧
      (now.status = .pending ∨ now.status = .skipped ∨
        (now.status ≠ .pending ∧ now.status ≠ .skipped) ∧ ∃ token,
          loaded.leaseToken = some token ∧ (t, token) ∈ s.2.tokens ∧ Spent n token s)
  | .leaseRow _ token => (t, token) ∈ s.2.tokens
  | _ => True

namespace Commands

theorem Inv.respected (h : Inv s) : Respected s where
  skip n hn d hd hid := (h.skip n hn d hd hid).1
  replay n hn := by
    obtain ⟨⟨d, hd, hid⟩, hall⟩ := h.replay n hn
    exact ⟨d, hd, hid, Or.inl (hall d hd hid)⟩

section steps

/-- A step that leaves the rows, the emissions and the commands as they are. -/
theorem Inv.of_same (h : Inv s) (hr : s'.1.rows = s.1.rows) (he : s'.1.emitted = s.1.emitted)
    (hst : s'.1.staged = s.1.staged) (hh : s'.2 = s.2) : Inv s' := by
  constructor
  · rw [hr, hh]
    exact h.skip
  · rw [hr, hh]
    exact h.replay
  · rw [he, hh]
    exact h.emitted
  · rw [hr, he]
    exact h.rows
  · rw [hst, he]
    exact h.staged
  · rw [hh]
    exact h.tokens

theorem Rely.of_same (hr : s'.1.rows = s.1.rows) (hh : s'.2 = s.2) : Rely t s s' := by
  constructor
  · rw [hh]
    exact fun _ => id
  · rw [hr, hh]
    exact Rely.refl.carried

/-- What a step keeps, whoever takes it. -/
structure Steps (t : ℕ) (s s' : Table × History) : Prop where
  inv : Inv s'
  own : ∀ x ∈ s.2.tokens, x ∈ s'.2.tokens
  others : ∀ u, u ≠ t → Rely u s s'

theorem Steps.of_same (h : Inv s) (hr : s'.1.rows = s.1.rows) (he : s'.1.emitted = s.1.emitted)
    (hst : s'.1.staged = s.1.staged) (hh : s'.2 = s.2) : Steps t s s' := by
  constructor
  · exact h.of_same hr he hst hh
  · rw [hh]
    exact fun _ => id
  · exact fun u _ => Rely.of_same hr hh

theorem steps_uuid4 (h : Inv s) (hfresh : n ∉ s.2.tokens.map Prod.snd) :
    Steps t s (s.1, { s.2 with tokens := (t, n) :: s.2.tokens }) := by
  have hsub : ∀ x ∈ s.2.tokens, x ∈ (t, n) :: s.2.tokens := fun x hx => List.mem_cons_of_mem _ hx
  constructor
  · exact ⟨h.skip, h.replay, h.emitted, h.rows, h.staged, List.nodup_cons.mpr ⟨hfresh, h.tokens⟩⟩
  · exact hsub
  · exact fun u _ => ⟨hsub, Rely.refl.carried⟩

/-- Two threads never have the same token. -/
theorem Inv.eq_of_token (h : Inv s) (ht : (t, token) ∈ s.2.tokens) (hu : (u, token) ∈ s.2.tokens) :
    t = u :=
  congrArg Prod.fst (List.inj_on_of_nodup_map h.tokens ht hu rfl)

theorem mem_setRow {f : WebhookDelivery → WebhookDelivery} (hd : d ∈ (s.1.setRow n f).rows) :
    ∃ x ∈ s.1.rows, x.id = n ∧ d = f x ∨ x.id ≠ n ∧ d = x := by
  obtain ⟨x, hx, rfl⟩ := List.mem_map.mp hd
  by_cases hid : x.id = n
  · exact ⟨x, hx, Or.inl ⟨hid, by simp [hid]⟩⟩
  · exact ⟨x, hx, Or.inr ⟨hid, by simp [hid]⟩⟩

theorem setRow_mem {f : WebhookDelivery → WebhookDelivery} (hf : ∀ x, (f x).id = x.id)
    (hd : d ∈ s.1.rows) : ∃ x ∈ (s.1.setRow n f).rows, x.id = d.id := by
  refine ⟨_, List.mem_map_of_mem hd, ?_⟩
  split_ifs
  · exact hf d
  · rfl

/-- The lease of a row takes no command back and gives the token to a thread that has drawn it. -/
theorem steps_lease {now : ℕ} (h : Inv s) (ht : (t, token) ∈ s.2.tokens) :
    Steps t s (s.1.setRow n fun d => (leased token now d).getD d, s.2) := by
  have hid : ∀ x, ((leased token now x).getD x).id = x.id := fun x => (status_leased x).1.id.symm
  have hstatus : ∀ x, ((leased token now x).getD x).status = x.status :=
    fun x => (status_leased x).2
  constructor
  · constructor
    · intro m hm d hd hdm
      obtain ⟨x, hx, ⟨hxn, rfl⟩ | ⟨hxn, rfl⟩⟩ := mem_setRow hd
      · have hskip := h.skip m hm x hx ((hid x).symm.trans hdm)
        have hnone : leased token now x = none := by
          simp [leased, hskip.1]
        rw [hnone]
        exact hskip
      · exact h.skip m hm d hx hdm
    · intro m hm
      obtain ⟨⟨x, hx, hxm⟩, hall⟩ := h.replay m hm
      constructor
      · obtain ⟨y, hy, hyx⟩ := setRow_mem (n := n) hid hx
        exact ⟨y, hy, hyx.trans hxm⟩
      · intro d hd hdm
        obtain ⟨x, hx, ⟨hxn, rfl⟩ | ⟨hxn, rfl⟩⟩ := mem_setRow hd
        · exact (hstatus x).trans (hall x hx ((hid x).symm.trans hdm))
        · exact hall d hx hdm
    · exact h.emitted
    · intro d hd
      obtain ⟨x, hx, ⟨hxn, rfl⟩ | ⟨hxn, rfl⟩⟩ := mem_setRow hd
      · have hrow := h.rows x hx
        rwa [← hid x] at hrow
      · exact h.rows d hx
    · exact h.staged
    · exact h.tokens
  · exact fun _ => id
  · intro u hu
    constructor
    · exact fun _ => id
    · intro m own hown d hd hdm hdt
      refine ⟨?_, Or.inr ⟨rfl, id⟩⟩
      obtain ⟨x, hx, ⟨hxn, rfl⟩ | ⟨hxn, rfl⟩⟩ := mem_setRow hd
      · unfold leased at hdm hdt
        split_ifs at hdm hdt
        · exact ⟨x, hx, hdm, hdt⟩
        · exact ⟨x, hx, hdm, hdt⟩
        · have hsame : token = own := Option.some.inj hdt
          exact absurd (h.eq_of_token (hsame ▸ hown) ht) hu
      · exact ⟨d, hx, hdm, hdt⟩

/-- What the commit of `now` over a row with the token that was read leaves there. -/
theorem token_store {loaded now : WebhookDelivery} (hnow : now.leaseToken = none)
    (hd : d.leaseToken = loaded.leaseToken) : (store loaded now d).leaseToken = none := by
  simp only [store, changed, hnow]
  split_ifs with h
  · exact hd.trans h.symm
  · rfl

theorem status_store_of {loaded now : WebhookDelivery} (hd : d.status = loaded.status) :
    (store loaded now d).status = now.status := by
  simp only [store, changed]
  split_ifs with h
  · exact hd.trans h.symm
  · rfl

theorem find_isSome_iff : (s.1.find n).isSome ↔ ∃ d ∈ s.1.rows, d.id = n := by
  simp [Table.find]

theorem mem_update {loaded now : WebhookDelivery} (hd : d ∈ (s.1.update n loaded now).rows) :
    (∃ x ∈ s.1.rows, x.id = n ∧ d = store loaded now x) ∨ d.id ≠ n ∧ d ∈ s.1.rows := by
  obtain ⟨x, hx, ⟨hxn, rfl⟩ | ⟨hxn, rfl⟩⟩ := mem_setRow hd
  · exact Or.inl ⟨x, hx, hxn, rfl⟩
  · exact Or.inr ⟨hxn, hx⟩

@[simp] theorem updated_tokens (h : History) (now : WebhookDelivery) :
    (h.updated n now).tokens = h.tokens := by
  unfold History.updated
  cases now.status <;> rfl

theorem updated_command_ne (h : History) (now : WebhookDelivery) {m : ℕ} (hm : m ≠ n) :
    (h.updated n now).command m = h.command m := by
  unfold History.updated
  cases now.status <;> simp [History.give, hm]

theorem mem_updated_posts (h : History) (now : WebhookDelivery) {x : ℕ × ℕ} (hx : x ∈ h.posts)
    (hn : x.2 ≠ n) : x ∈ (h.updated n now).posts := by
  unfold History.updated
  cases now.status <;> simp [History.give, hx, hn]

theorem updated_command (h : History) (now : WebhookDelivery) :
    now.status = .skipped ∧ (h.updated n now).command n = some .skip ∨
      now.status = .pending ∧ (h.updated n now).command n = some .replay ∨
      (now.status ≠ .pending ∧ now.status ≠ .skipped) ∧ h.updated n now = h := by
  unfold History.updated
  cases now.status <;> simp [History.give]

/-- The commit of a command, or of a sender on whose row nothing is commanded. -/
theorem steps_update {loaded now : WebhookDelivery} (h : Inv s)
    (hcond : Undisturbed s.1 (.update n loaded now))
    (hsafe : Entitled t s (.update n loaded now)) (hfound : ∃ d ∈ s.1.rows, d.id = n) :
    Steps t s (s.1.update n loaded now, s.2.updated n now) := by
  obtain ⟨hnow, hwho⟩ := hsafe
  have hnone : ∀ x ∈ s.1.rows, x.id = n → (store loaded now x).leaseToken = none :=
    fun x hx hxn => token_store hnow (hcond x hx hxn).1
  have hstatus : now.status = .pending ∨ now.status = .skipped → ∀ x ∈ s.1.rows, x.id = n →
      (store loaded now x).status = now.status :=
    fun hc x hx hxn => status_store_of ((hcond x hx hxn).2 hc)
  have hfree : now.status ≠ .pending → now.status ≠ .skipped → s.2.command n = none := by
    intro hp hs
    obtain hc | hc | ⟨-, own, hown, -, hspent⟩ := hwho
    · exact absurd hc hp
    · exact absurd hc hs
    · obtain ⟨x, hx, hxn⟩ := hfound
      exact hspent x hx hxn ((hcond x hx hxn).1.trans hown)
  have hkeep : ∃ d ∈ (s.1.update n loaded now).rows, d.id = n := by
    obtain ⟨x, hx, hxn⟩ := hfound
    obtain ⟨y, hy, hyx⟩ := setRow_mem (s := s) (n := n) (f := store loaded now) (fun _ => rfl) hx
    exact ⟨y, hy, hyx.trans hxn⟩
  constructor
  · constructor
    · intro m hm d hd hdm
      obtain ⟨x, hx, hxn, rfl⟩ | ⟨hdn, hd⟩ := mem_update hd
      · have hmn : m = n := hdm.symm.trans hxn
        subst hmn
        refine ⟨?_, hnone x hx hxn⟩
        obtain ⟨hc, -⟩ | ⟨-, hr⟩ | ⟨⟨hp, hs⟩, hsame⟩ := updated_command (n := m) s.2 now
        · exact (hstatus (Or.inr hc) x hx hxn).trans hc
        · cases hm.symm.trans hr
        · rw [hsame, hfree hp hs] at hm
          cases hm
      · have hmn : m ≠ n := fun he => hdn (hdm.trans he)
        rw [updated_command_ne s.2 now hmn] at hm
        exact h.skip m hm d hd hdm
    · intro m hm
      by_cases hmn : m = n
      · subst hmn
        refine ⟨hkeep, fun d hd hdm => ?_⟩
        obtain ⟨x, hx, hxn, rfl⟩ | ⟨hdn, -⟩ := mem_update hd
        · obtain ⟨-, hr⟩ | ⟨hc, -⟩ | ⟨⟨hp, hs⟩, hsame⟩ := updated_command (n := m) s.2 now
          · cases hm.symm.trans hr
          · exact (hstatus (Or.inl hc) x hx hxn).trans hc
          · rw [hsame, hfree hp hs] at hm
            cases hm
        · exact absurd hdm hdn
      · rw [updated_command_ne s.2 now hmn] at hm
        obtain ⟨⟨x, hx, hxm⟩, hall⟩ := h.replay m hm
        constructor
        · obtain ⟨y, hy, hyx⟩ :=
            setRow_mem (s := s) (n := n) (f := store loaded now) (fun _ => rfl) hx
          exact ⟨y, hy, hyx.trans hxm⟩
        · intro d hd hdm
          obtain ⟨x, hx, hxn, rfl⟩ | ⟨-, hd⟩ := mem_update hd
          · exact absurd (hdm.symm.trans hxn) hmn
          · exact hall d hd hdm
    · intro m hm
      by_cases hmn : m = n
      · obtain ⟨x, hx, hxn⟩ := hfound
        have hrow := h.rows x hx
        rwa [hxn, ← hmn] at hrow
      · rw [updated_command_ne s.2 now hmn] at hm
        exact h.emitted m hm
    · intro d hd
      obtain ⟨x, hx, -, rfl⟩ | ⟨-, hd⟩ := mem_update hd
      · exact h.rows x hx
      · exact h.rows d hd
    · exact h.staged
    · rw [updated_tokens]
      exact h.tokens
  · rw [updated_tokens]
    exact fun _ => id
  · intro u _
    constructor
    · rw [updated_tokens]
      exact fun _ => id
    · intro m own _ d hd hdm hdt
      obtain ⟨x, hx, hxn, rfl⟩ | ⟨hdn, hd⟩ := mem_update hd
      · rw [hnone x hx hxn] at hdt
        cases hdt
      · have hmn : m ≠ n := fun he => hdn (hdm.trans he)
        refine ⟨⟨d, hd, hdm, hdt⟩, Or.inr ⟨updated_command_ne s.2 now hmn, fun hp => ?_⟩⟩
        exact mem_updated_posts s.2 now hp hmn

theorem steps_post (h : Inv s) {posted : List WebhookDelivery} :
    Steps t s ({ s.1 with posted := posted }, s.2.posting t n) := by
  constructor
  · exact ⟨h.skip, h.replay, h.emitted, h.rows, h.staged, h.tokens⟩
  · exact fun _ => id
  · intro u _
    constructor
    · exact fun _ => id
    · intro m own _ d hd hdm hdt
      exact ⟨⟨d, hd, hdm, hdt⟩, Or.inr ⟨rfl, List.mem_cons_of_mem _⟩⟩

/-- No row under the lease is commanded when its POST starts, unless it has been replayed. -/
theorem posting_post (h : Inv s) {posted : List WebhookDelivery} :
    Posting t n token ({ s.1 with posted := posted }, s.2.posting t n) := by
  intro d hd hdn hdt
  show s.2.command n = none ∨ s.2.command n = some .replay ∧ (t, n) ∈ (t, n) :: s.2.posts
  cases hc : s.2.command n with
  | none => exact Or.inl rfl
  | some cmd =>
    cases cmd with
    | replay => exact Or.inr ⟨rfl, List.mem_cons_self⟩
    | skip =>
      have hnone := (h.skip n hc d hd hdn).2
      cases hnone.symm.trans hdt

@[simp] theorem posted_tokens (h : History) : (h.posted t n).tokens = h.tokens := by
  unfold History.posted
  split_ifs <;> rfl

theorem posted_command (h : History) (m : ℕ) : (h.posted t n).command m = none ∨
    (h.posted t n).command m = h.command m ∧ ∀ u, (u, m) ∈ h.posts → (u, m) ∈ (h.posted t n).posts
    := by
  unfold History.posted
  split_ifs
  · by_cases hmn : m = n
    · subst hmn
      exact Or.inl (by simp [History.give])
    · refine Or.inr ⟨by simp [History.give, hmn], fun u hu => ?_⟩
      simp [History.give, hu, hmn]
  · exact Or.inr ⟨rfl, fun _ => id⟩

/-- The end of a POST puts an end to the replay before it. -/
theorem steps_posted (answered : List ℕ) (h : Inv s) :
    Steps t s ({ s.1 with answered := answered }, s.2.posted t n) := by
  have hold : ∀ m cmd, (s.2.posted t n).command m = some cmd → s.2.command m = some cmd := by
    intro m cmd hm
    rcases posted_command (t := t) (n := n) s.2 m with hc | hc
    · cases hc.symm.trans hm
    · exact hc.1.symm.trans hm
  constructor
  · constructor
    · exact fun m hm => h.skip m (hold m _ hm)
    · exact fun m hm => h.replay m (hold m _ hm)
    · intro m hm
      obtain ⟨cmd, hcmd⟩ := Option.ne_none_iff_exists'.mp hm
      exact h.emitted m (by simp [hold m cmd hcmd])
    · exact h.rows
    · exact h.staged
    · rw [posted_tokens]
      exact h.tokens
  · rw [posted_tokens]
    exact fun _ => id
  · intro u _
    constructor
    · rw [posted_tokens]
      exact fun _ => id
    · intro m own _ d hd hdm hdt
      exact ⟨⟨d, hd, hdm, hdt⟩, (posted_command s.2 m).imp_right fun hc => ⟨hc.1, hc.2 u⟩⟩

/-- Nothing is commanded any more on a row under the lease once its POST has finished. -/
theorem spent_posted (answered : List ℕ) (h : Posting t n token s) :
    Spent n token ({ s.1 with answered := answered }, s.2.posted t n) := by
  intro d hd hdn hdt
  unfold History.posted
  split_ifs with hr
  · simp [History.give]
  · rcases h d hd hdn hdt with hc | hc
    · exact hc
    · exact absurd hc hr

theorem steps_delete {ids : List ℕ} (h : Inv s) (hcond : Undisturbed s.1 (.delete ids)) :
    Steps t s (s.1.delete ids, s.2) := by
  have hsub : ∀ d ∈ (s.1.delete ids).rows, d ∈ s.1.rows := fun d hd => List.mem_of_mem_filter hd
  constructor
  · constructor
    · exact fun m hm d hd => h.skip m hm d (hsub d hd)
    · intro m hm
      obtain ⟨⟨x, hx, hxm⟩, hall⟩ := h.replay m hm
      refine ⟨⟨x, ?_, hxm⟩, fun d hd => hall d (hsub d hd)⟩
      refine List.mem_filter.mpr ⟨hx, decide_eq_true fun hids => ?_⟩
      have hpending := hall x hx hxm
      have hclosed := hcond x hx hids
      simp [hpending] at hclosed
    · exact h.emitted
    · exact fun d hd => h.rows d (hsub d hd)
    · exact h.staged
    · exact h.tokens
  · exact fun _ => id
  · intro u _
    constructor
    · exact fun _ => id
    · exact fun m own _ d hd hdm hdt => ⟨⟨d, hsub d hd, hdm, hdt⟩, Or.inr ⟨rfl, id⟩⟩

end steps

end Commands

end Fakery.Dispatch

import Fakery.Migrations.Pilot
import Fakery.Meetings.Canonical

/-! On which URLs the migration computes the key of the application. -/
namespace Fakery.Migrations
open Fakery.Core Fakery.Meetings

variable {admits : Text → Bool} {url rest segment : Text} {r : Text × Text}

section sql

theorem withoutSite_append (rest : Text) : withoutSite (site ++ rest) = rest := by
  have hself : ∀ pattern : Text,
      ((pattern.zip (pattern ++ rest)).all fun c => c.1 = '.' || c.1 = c.2) = true := by
    intro pattern
    induction pattern with
    | nil => rfl
    | cons c pattern ih => simpa using ih
  have hlength : site.length ≤ (site ++ rest).length := by
    rw [List.length_append]
    omega
  unfold withoutSite
  rw [hself site, decide_eq_true hlength]
  simp

/-- What the migration takes for the code. -/
def sqlCode (url : Text) : Text := withoutTail (withoutSite url)

theorem length_sqlKey (url : Text) : (sqlKey url).length = (sqlCode url).length + 16 := by
  have hhost : meetHost.length = 15 := by decide
  simp only [sqlKey, sqlCode, lower, List.length_append, List.length_cons, List.length_map, hhost]
  omega

end sql

section application

/-- What is left of a text without tabs and line breaks. -/
def clean (s : Text) : Text := s.filter (!unsafeChar ·)

theorem clean_takeWhile (s : Text) :
    (clean s).takeWhile (!delimiter ·) = clean (s.takeWhile (!delimiter ·)) := by
  induction s with
  | nil => rfl
  | cons c s ih =>
    cases hd : delimiter c with
    | true =>
      have hsafe : unsafeChar c = false := by
        simp only [delimiter, Bool.or_eq_true, decide_eq_true_eq] at hd
        rcases hd with (rfl | rfl) | rfl <;> decide
      simp [clean, hd, hsafe]
    | false =>
      cases hu : unsafeChar c with
      | true => simpa [clean, hd, hu] using ih
      | false => simpa [clean, hd, hu] using ih

theorem splitScheme_site (t : Text) : splitScheme (https ++ ':' :: t) = (https, t) := by
  have hcolon : ':' ∉ https := by decide
  have hbefore : before ':' (https ++ ':' :: t) = https := by
    rw [before_append hcolon, before_cons, List.append_nil]
  have hhttps : https.head?.any Char.isAlpha = true ∧ https.all schemeChar = true := by decide
  have hmem : ':' ∈ https ++ ':' :: t := by simp
  unfold splitScheme
  rw [hbefore, after_append hcolon, lower_https]
  exact if_pos ⟨hmem, hhttps⟩

theorem splitNetloc_site (t : Text) :
    splitNetloc ('/' :: '/' :: (meetHost ++ '/' :: t)) = (meetHost, '/' :: t) := by
  have hhost : (meetHost.all (!delimiter ·)) = true := by decide
  have hfree := List.all_eq_true.mp hhost
  simp only [splitNetloc]
  rw [List.takeWhile_append_of_pos hfree, List.dropWhile_append_of_pos hfree,
    List.takeWhile_cons_of_neg (by decide), List.dropWhile_cons_of_neg (by decide),
    List.append_nil]

theorem path_of_site {parsed : SplitResult}
    (h : urlsplit admits (site ++ rest) = some parsed) :
    parsed.path = '/' :: before '?' (before '#' (clean rest)) := by
  have hlead : (site ++ rest).dropWhile (· ≤ ' ') = site ++ rest := rfl
  have hsite : site ++ clean rest =
      https ++ ':' :: '/' :: '/' :: (meetHost ++ '/' :: clean rest) := by
    simp [site]
  have hclean : (site ++ rest).filter (!unsafeChar ·) = site ++ clean rest := by
    have hkeep : site.filter (!unsafeChar ·) = site := by decide
    rw [List.filter_append, hkeep]
    rfl
  have hplain : checkNetloc admits meetHost = true := by
    have hhost : plainNetloc meetHost = true := by decide
    rw [checkNetloc, hhost, Bool.true_or]
  unfold urlsplit at h
  simp only [hlead, hclean] at h
  rw [hsite] at h
  simp only [splitScheme_site, splitNetloc_site, hplain, if_true] at h
  have hparsed := Option.some.inj h
  rw [← hparsed]
  rfl

theorem before_before (s : Text) :
    before '/' (before '?' (before '#' s)) = s.takeWhile (!delimiter ·) := by
  unfold before
  rw [List.takeWhile_takeWhile, List.takeWhile_takeWhile]
  congr 1
  funext c
  simp [delimiter, Bool.and_assoc]

/-- The first segment is what stands before the first slash. -/
theorem segments_before (h : segments rest = [segment]) (hne : before '/' rest ≠ []) :
    segment = before '/' rest := by
  have hslash : '/' ∉ before '/' rest := by
    intro hmem
    have htake := List.mem_takeWhile_imp hmem
    simp at htake
  have hfirst := segments_of_not_mem hslash hne
  have hsplit : rest = before '/' rest ++ rest.dropWhile (· ≠ '/') :=
    List.takeWhile_append_dropWhile.symm
  cases hdrop : rest.dropWhile (· ≠ '/') with
  | nil =>
    rw [hdrop, List.append_nil] at hsplit
    rw [hsplit, hfirst] at h
    exact (List.singleton_inj.mp h).symm
  | cons c t =>
    have hc : c = '/' := by
      have hhead := List.head?_dropWhile_not (fun x : Char => decide (x ≠ '/')) rest
      rw [hdrop] at hhead
      simpa using hhead
    rw [hdrop, hc] at hsplit
    rw [hsplit, segments_append, hfirst] at h
    exact (List.cons.inj h).1.symm

/-- The texts from which the migration reads the code of the application. -/
def PlainCode (code : Text) : Prop := code ≠ [] ∧ ∀ c ∈ code, unsafeChar c = false

theorem lower_unsafeChar {c : Char} (h : unsafeChar c = true) :
    lowerChar c = c ∧ patternChar c = false := by
  simp only [unsafeChar, Bool.or_eq_true, decide_eq_true_eq] at h
  rcases h with (rfl | rfl) | rfl <;> decide

/-- The keys are the same if a code stands right behind the host, with nothing that is removed. -/
theorem sqlKey_eq_iff (hsite : site <+: url) (h : normalizeMeetingUrl admits url = .ok r) :
    sqlKey url = r.2 ↔ PlainCode (sqlCode url) := by
  obtain ⟨rest, rfl⟩ := hsite
  obtain ⟨parsed, segment, hsplit, hnames, rfl⟩ := normalize_eq_ok.mp h
  have hcode : sqlCode (site ++ rest) = rest.takeWhile (!delimiter ·) := by
    rw [sqlCode, withoutSite_append]
    rfl
  have hkey : sqlKey (site ++ rest) = (canonical (lower segment)).2 ↔
      lower (sqlCode (site ++ rest)) = lower segment := by
    simp [sqlKey, sqlCode, canonical]
  have hsegments : segments (before '?' (before '#' (clean rest))) = [segment] := by
    rw [← segments_cons, ← path_of_site hsplit]
    exact hnames.path
  have hfirst : before '/' (before '?' (before '#' (clean rest))) =
      clean (sqlCode (site ++ rest)) := by
    rw [before_before, clean_takeWhile, hcode]
  rw [hkey]
  constructor
  · intro heq
    constructor
    · intro hnil
      rw [hnil] at heq
      exact ne_nil_of_isCode hnames.code heq.symm
    · intro c hc
      by_contra hunsafe
      have hlower := lower_unsafeChar (Bool.not_eq_false _ ▸ hunsafe)
      have hmem : c ∈ lower segment := by
        rw [← heq, ← hlower.1]
        exact List.mem_map_of_mem hc
      rw [patternChar_of_isCode hnames.code c hmem] at hlower
      cases hlower.2
  · rintro ⟨hne, hsafe⟩
    have hclean : clean (sqlCode (site ++ rest)) = sqlCode (site ++ rest) := by
      apply List.filter_eq_self.mpr
      intro c hc
      rw [hsafe c hc]
      rfl
    rw [hclean] at hfirst
    rw [segments_before hsegments (hfirst ▸ hne), hfirst]

end application

end Fakery.Migrations

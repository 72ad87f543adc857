import Mathlib
import SourceMap.Proofs.UrlGrammar

/-!
# Normalizing twice

A normalized path has no dots to resolve and no doubled slash, so that normalizing it again changes
nothing (`normalizePath_normalizePath`) and it is no URL. A URL whose path starts with a slash is
split before this slash whatever the path is (`ofChars?_of_path`), so that normalizing changes
nothing of it but the path.
-/

set_option autoImplicit false

namespace SourceMap

/-! ## URLs with another path -/

namespace Url

/-- A slash ends a run of characters of a class it is not of. -/
theorem takeWhile_append_slash {p : Char → Bool} (hp : p '/' = false) (cs path : List Char) :
    (cs ++ '/' :: path).takeWhile p = cs.takeWhile p ∧
      (cs ++ '/' :: path).dropWhile p = cs.dropWhile p ++ '/' :: path := by
  induction cs with
  | nil => simp [hp]
  | cons c cs ih =>
      by_cases hc : p c = true
      · simpa [hc] using ih
      · simp [hc]

theorem splitAuth_append_slash (cs path : List Char) :
    splitAuth (cs ++ '/' :: path) = ((splitAuth cs).1, (splitAuth cs).2 ++ '/' :: path) := by
  obtain ⟨htake, hdrop⟩ := takeWhile_append_slash isWord_slash cs path
  rw [splitAuth, splitAuth, htake, hdrop]
  cases cs.takeWhile Text.isWord with
  | nil => rfl
  | cons c user =>
      cases cs.dropWhile Text.isWord with
      | nil => rfl
      | cons d more =>
          by_cases hd : d = ':'
          · subst hd
            obtain ⟨htake', hdrop'⟩ := takeWhile_append_slash isWord_slash more path
            simp only [List.cons_append, htake', hdrop']
            cases more.takeWhile Text.isWord with
            | nil => rfl
            | cons e word =>
                cases more.dropWhile Text.isWord with
                | nil => rfl
                | cons f rest =>
                    by_cases hf : f = '@'
                    · subst hf
                      rfl
                    · simp [hf]
          · simp [hd]

theorem splitPort_append_slash (cs path : List Char) :
    splitPort (cs ++ '/' :: path) = ((splitPort cs).1, (splitPort cs).2 ++ '/' :: path) := by
  cases cs with
  | nil => rfl
  | cons c more =>
      by_cases hc : c = ':'
      · subst hc
        obtain ⟨htake, hdrop⟩ := takeWhile_append_slash isDecimal_slash more path
        simp only [splitPort, List.cons_append, htake, hdrop]
        cases more.takeWhile Text.isDecimal <;> rfl
      · simp [splitPort, hc]

/-- What comes behind a text, from a slash on, goes to the path. -/
theorem split_append_slash (scheme cs path : List Char) : split scheme (cs ++ '/' :: path) =
    { split scheme cs with path := (split scheme cs).path ++ '/' :: path } := by
  obtain ⟨htake, hdrop⟩ := takeWhile_append_slash isHostChar_slash (splitAuth cs).2 path
  simp only [split, splitAuth_append_slash, htake, hdrop, splitPort_append_slash]

/-- A URL is split at the same places whatever its path is, if the path starts with a slash. -/
theorem ofChars?_of_path {cs path path' : List Char} {u : Url} (h : ofChars? cs = some u)
    (hpath : u.path = '/' :: path) (hline : '\n' ∉ path') :
    ofChars? (u.stem ++ '/' :: path') = some { u with path := '/' :: path' } := by
  have hspelled := (toChars_of_ofChars? h).1
  obtain ⟨hline', scheme, rest, hscheme, rfl⟩ := ofChars?_eq_some_iff.mp h
  obtain ⟨hclass, rfl⟩ := splitScheme?_eq_some_iff.mp hscheme
  -- what follows the slashes is the authority and the path
  have hrest : (split scheme rest).authority ++ '/' :: path = rest := by
    rw [toChars_eq, stem, List.append_assoc, hpath] at hspelled
    simpa [split] using hspelled
  have hstem : (split scheme rest).stem = (if scheme.isEmpty then [] else scheme ++ [':']) ++
      '/' :: '/' :: (split scheme rest).authority := rfl
  generalize (split scheme rest).authority = authority at hrest hstem
  have hread := split_append_slash scheme authority path
  rw [hrest] at hread
  -- nothing of the authority alone is split off as a path
  have hnil : (split scheme authority).path = [] := by
    have hsame := congrArg Url.path hread
    rw [hpath] at hsame
    exact List.append_left_eq_self.mp hsame.symm
  refine ofChars?_eq_some_iff.mpr ⟨?_, scheme, authority ++ '/' :: path',
    splitScheme?_eq_some_iff.mpr ⟨hclass, ?_⟩, ?_⟩
  · rw [← hrest] at hline'
    rw [hstem]
    simp only [List.mem_append, List.mem_cons, not_or] at hline' ⊢
    obtain ⟨hbefore, hslash, hslash', hauthority, -⟩ := hline'
    exact ⟨⟨hbefore, hslash, hslash', hauthority⟩, hslash, hline⟩
  · rw [hstem]
    simp
  · rw [split_append_slash, hread, hnil]
    rfl

end Url

namespace Path

/-! ## Paths -/

/-- Dots that are resolved stay resolved. -/
theorem resolved_resolved (ps : List (List Char)) : resolved (resolved ps) = resolved ps := by
  have hkept : resolve (resolve ps).2 = (0, (resolve ps).2) :=
    resolve_of_forall fun p hp => (mem_resolve hp).2
  have hresolve : resolve (resolved ps) = resolve ps := by
    rw [resolved_eq, resolve_replicate, hkept, Nat.zero_add]
  rw [resolved_eq, hresolve, ← resolved_eq]

/-- What normalizing makes of a path of which nothing is left. -/
theorem normalizePath_of_nil {cs : List Char} (h : joinComponents (resolved (components cs)) = []) :
    normalizePath cs = ['/'] ∨ normalizePath cs = ['.'] := by
  rw [normalizePath, h]
  dsimp only
  split_ifs
  · exact Or.inl rfl
  · exact Or.inr rfl

/-- **A normalized path stays as it is.** -/
theorem normalizePath_normalizePath (cs : List Char) :
    normalizePath (normalizePath cs) = normalizePath cs := by
  by_cases hnil : joinComponents (resolved (components cs)) = []
  · rcases normalizePath_of_nil hnil with hroot | hdot
    · rw [hroot]
      decide
    · rw [hdot]
      decide
  · have hseparated := separated_components cs
    have hresolved : Separated (resolved (components cs)) :=
      hseparated.resolved.resolve_left fun heq => hnil (by rw [heq, joinComponents_nil])
    rw [normalizePath_of_ne_nil hnil,
      normalizePath_joinComponents hresolved (by rwa [resolved_resolved]), resolved_resolved]

/-- A normalized path is no URL. -/
theorem ofChars?_normalizePath (cs : List Char) : Url.ofChars? (normalizePath cs) = none := by
  rcases exists_settled (normalizePath_normalizePath cs) with hdot | ⟨ps, hps, -, heq⟩
  · rw [hdot]
    decide
  · rw [heq]
    exact ofChars?_joinComponents hps

/-! ## Characters of a normalized path -/

theorem mem_of_mem_components {cs p : List Char} {c : Char} (hp : p ∈ components cs) (hc : c ∈ p) :
    c ∈ cs := by
  induction cs generalizing p with
  | nil =>
      rw [components, List.mem_singleton] at hp
      rw [hp] at hc
      exact absurd hc List.not_mem_nil
  | cons d cs ih =>
      have hrest {q : List Char} (hq : q ∈ components cs) (hc : c ∈ q) : c ∈ d :: cs :=
        List.mem_cons_of_mem _ (ih hq hc)
      rw [components] at hp
      split at hp
      · rename_i heq
        exact hrest (by rwa [heq]) hc
      · rcases List.mem_cons.mp hp with rfl | hmem
        · exact absurd hc List.not_mem_nil
        · exact hrest hmem hc
      · rename_i heq
        rcases List.mem_cons.mp hp with rfl | hmem
        · rcases List.mem_cons.mp hc with rfl | hc
          · exact List.mem_cons_self
          · exact hrest (by rw [heq]; exact List.mem_cons_self) hc
        · exact hrest (by rw [heq]; exact List.mem_cons_of_mem _ hmem) hc
      · rw [List.mem_singleton] at hp
        rw [hp, List.mem_singleton] at hc
        rw [hc]
        exact List.mem_cons_self

theorem mem_joinComponents {ps : List (List Char)} {c : Char} (h : c ∈ joinComponents ps) :
    c = '/' ∨ ∃ p ∈ ps, c ∈ p := by
  induction ps with
  | nil => exact absurd h List.not_mem_nil
  | cons p ps ih =>
      by_cases hps : ps = []
      · rw [hps, joinComponents_singleton] at h
        exact Or.inr ⟨p, List.mem_cons_self, h⟩
      · rw [joinComponents_cons hps, List.mem_append, List.mem_cons] at h
        rcases h with hp | hslash | hrest
        · exact Or.inr ⟨p, List.mem_cons_self, hp⟩
        · exact Or.inl hslash
        · exact (ih hrest).imp_right fun ⟨q, hq, hc⟩ => ⟨q, List.mem_cons_of_mem _ hq, hc⟩

/-- Normalizing brings no characters but slashes and dots. -/
theorem mem_normalizePath {cs : List Char} {c : Char} (h : c ∈ normalizePath cs) :
    c = '/' ∨ c = '.' ∨ c ∈ cs := by
  by_cases hnil : joinComponents (resolved (components cs)) = []
  · rcases normalizePath_of_nil hnil with hroot | hdot
    · rw [hroot, List.mem_singleton] at h
      exact Or.inl h
    · rw [hdot, List.mem_singleton] at h
      exact Or.inr (Or.inl h)
  · rw [normalizePath_of_ne_nil hnil] at h
    refine (mem_joinComponents h).imp_right ?_
    rintro ⟨p, hp, hc⟩
    rw [resolved_eq, List.mem_append] at hp
    rcases hp with hup | hkept
    · rw [List.eq_of_mem_replicate hup] at hc
      simp_all
    · exact Or.inr (mem_of_mem_components (mem_resolve hkept).1 hc)

/-- An absolute path stays absolute. -/
theorem exists_normalizePath_slash (cs : List Char) :
    ∃ path, normalizePath ('/' :: cs) = '/' :: path := by
  by_cases hnil : joinComponents (resolved (components ('/' :: cs))) = []
  · have habsolute : isAbsoluteChars ('/' :: cs) = true := by simp [isAbsoluteChars]
    refine ⟨[], ?_⟩
    rw [normalizePath, hnil]
    exact if_pos habsolute
  · -- the empty component before the slash is the first of what is left
    obtain ⟨p, ps, hcomponents⟩ := exists_components_slash cs
    have hnormal := normalizePath_of_ne_nil hnil
    rw [hcomponents, resolved_nil_cons] at hnil hnormal
    have hne : (resolve (p :: ps)).2 ≠ [] := by
      intro heq
      exact hnil (by rw [heq, joinComponents_singleton])
    exact ⟨_, hnormal.trans (joinComponents_cons hne)⟩

/-! ## Names -/

theorem normalizeChars_of_url {cs : List Char} {u : Url} (h : Url.ofChars? cs = some u)
    (hpath : u.path ≠ []) : normalizeChars cs = u.stem ++ normalizePath u.path := by
  have hkept : ¬ u.path.isEmpty = true := by simpa using hpath
  rw [normalizeChars, h]
  dsimp only
  rw [if_neg hkept, Url.toChars_eq]
  rfl

/-- A URL whose path starts with a slash keeps all its parts but the path. -/
theorem ofChars?_normalizeChars {cs path : List Char} {u : Url} (h : Url.ofChars? cs = some u)
    (hpath : u.path = '/' :: path) : ∃ path', normalizePath u.path = '/' :: path' ∧
      Url.ofChars? (normalizeChars cs) = some { u with path := '/' :: path' } := by
  obtain ⟨path', hnormal⟩ := exists_normalizePath_slash path
  rw [← hpath] at hnormal
  have hline : '\n' ∉ path' := by
    intro hmem
    have hmem' : '\n' ∈ normalizePath u.path := by simp [hnormal, hmem]
    have hcs : '\n' ∉ cs := (Url.ofChars?_eq_some_iff.mp h).1
    rw [← (Url.toChars_of_ofChars? h).1, Url.toChars_eq] at hcs
    rcases mem_normalizePath hmem' with hslash | hdot | hold
    · exact absurd hslash (by decide)
    · exact absurd hdot (by decide)
    · exact hcs (List.mem_append_right _ hold)
  refine ⟨path', hnormal, ?_⟩
  rw [normalizeChars_of_url h (by simp [hpath]), hnormal]
  exact Url.ofChars?_of_path h hpath hline

/-- **Normalizing twice is normalizing once**, unless the path of a URL does not start with a slash.
What is no URL stays none, and of a URL no part but the path is changed. -/
theorem normalize_normalize {s : String}
    (h : ∀ u, Url.parse? s = some u → u.path = [] ∨ u.path.head? = some '/') :
    normalize (normalize s) = normalize s ∧
    (Url.parse? s = none → Url.parse? (normalize s) = none) ∧
    ∀ u, Url.parse? s = some u → ∃ path, Url.parse? (normalize s) = some { u with path } := by
  have hparse : Url.parse? (normalize s) = Url.ofChars? (normalizeChars s.toList) := by
    rw [Url.parse?, normalize, String.toList_ofList]
  have htwice : normalize (normalize s) =
      String.ofList (normalizeChars (normalizeChars s.toList)) := by
    rw [normalize, normalize, String.toList_ofList]
  rw [htwice, hparse, normalize]
  cases hurl : Url.parse? s with
  | none =>
      have hnone := ofChars?_normalizePath s.toList
      rw [normalizeChars_of_none hurl, normalizeChars_of_none hnone, normalizePath_normalizePath]
      exact ⟨rfl, fun _ => hnone, fun u hu => absurd hu (by simp)⟩
  | some u =>
      cases hpath : u.path with
      | nil =>
          -- nothing is changed
          have hsame : normalizeChars s.toList = s.toList := by
            rw [normalizeChars, show Url.ofChars? s.toList = some u from hurl]
            simp [hpath]
          rw [hsame, hsame]
          refine ⟨rfl, fun hnone => absurd hnone (by simp), ?_⟩
          rintro v ⟨⟩
          exact ⟨u.path, hurl⟩
      | cons c path =>
          have hslash : u.path = '/' :: path := by
            rcases h u hurl with hnil | hhead
            · rw [hpath] at hnil
              cases hnil
            · rw [hpath] at hhead ⊢
              cases hhead
              rfl
          obtain ⟨path', hnormal, hread⟩ := ofChars?_normalizeChars hurl hslash
          refine ⟨?_, fun hnone => absurd hnone (by simp), ?_⟩
          · rw [normalizeChars_of_url hread (List.cons_ne_nil _ _), ← hnormal,
              normalizePath_normalizePath, normalizeChars_of_url hurl (by simp [hslash])]
            rfl
          · rintro v ⟨⟩
            exact ⟨_, hread⟩

/-- A path and a URL with dots to resolve. -/
theorem normalize_normalize_dots :
    normalize (normalize "./a//../b/.") = normalize "./a//../b/." ∧
    Url.parse? (normalize "./a//../b/.") = none ∧
    normalize (normalize "http://u:p@h:1/a/../b//") = normalize "http://u:p@h:1/a/../b//" ∧
    ∃ path, Url.parse? (normalize "http://u:p@h:1/a/../b//") = some
      { scheme := "http".toList, auth := "u:p".toList, host := "h".toList, port := "1".toList
        path } := by
  have hpath : Url.parse? "./a//../b/." = none := by decide +kernel
  have hurl : Url.parse? "http://u:p@h:1/a/../b//" = some
      { scheme := "http".toList, auth := "u:p".toList, host := "h".toList, port := "1".toList
        path := "/a/../b//".toList } := by decide +kernel
  obtain ⟨htwice, hnone, -⟩ := normalize_normalize (s := "./a//../b/.") fun u hu => by
    rw [hpath] at hu
    cases hu
  obtain ⟨htwice', -, hkept⟩ := normalize_normalize (s := "http://u:p@h:1/a/../b//") fun u hu => by
    rw [hurl] at hu
    cases hu
    exact Or.inr rfl
  exact ⟨htwice, hnone hpath, htwice', hkept _ hurl⟩

/-- A path that does not start with a slash may come to a port. -/
example : (Url.parse? "//h:a/../:1").map Url.port = some [] ∧
    (Url.parse? (normalize "//h:a/../:1")).map Url.port = some ['1'] := by decide +kernel

end Path

end SourceMap

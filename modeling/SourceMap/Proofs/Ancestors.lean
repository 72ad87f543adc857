import Mathlib
import SourceMap.Proofs.Url

/-!
# Directories above a root

The directories above a root are its components from the first on, one fewer each time
(`exists_of_upward`), and those above a URL stop before its stem (`upward_stem`). The way to a path
is found from the lowest of them that holds it (`relativeChars_of_ancestors`).
-/

set_option autoImplicit false

namespace SourceMap.Path

/-! ## Texts before slashes -/

theorem cuts_of_noSlash {p : List Char} (hp : '/' ∉ p) : cuts p = [] := by
  induction p with
  | nil => rfl
  | cons c p ih =>
      rw [cuts, ih fun h => hp (List.mem_cons_of_mem _ h), beq_slash_of_not_mem hp]
      rfl

theorem cuts_append (a b : List Char) : cuts (a ++ b) = (cuts b).map (a ++ ·) ++ cuts a := by
  induction a with
  | nil => simp [cuts]
  | cons c a ih => simp [cuts, ih]

/-- The longest text before a slash is what stands before the last one. -/
theorem cuts_append_slash (a : List Char) {p : List Char} (hp : '/' ∉ p) :
    cuts (a ++ '/' :: p) = a :: cuts a := by
  have hslash : cuts ('/' :: p) = [[]] := by
    rw [cuts, cuts_of_noSlash hp]
    rfl
  rw [cuts_append, hslash]
  simp

/-! ## Going up -/

/-- A directory and those above it, up to the first of them to stop at. -/
def upward (stop : List Char → Bool) (dir : List Char) : List (List Char) :=
  dir :: (cuts dir).takeWhile (!stop ·)

/-- A text without one trailing slash. -/
def dropSlash (root : List Char) : List Char :=
  if root.getLast? = some '/' then root.dropLast else root

theorem ancestors_eq {root : List Char} (h : root ≠ []) :
    ancestors root = upward isSchemeRoot (dropSlash root) := by
  have hroot : orDot root = root := if_neg (by simpa using h)
  rw [ancestors, hroot]
  rfl

theorem upward_of_noSlash (stop : List Char → Bool) {p : List Char} (hp : '/' ∉ p) :
    upward stop p = [p] := by
  rw [upward, cuts_of_noSlash hp]
  rfl

theorem upward_append_slash (stop : List Char → Bool) (a : List Char) {p : List Char}
    (hp : '/' ∉ p) : upward stop (a ++ '/' :: p) =
      (a ++ '/' :: p) :: if stop a then [] else upward stop a := by
  rw [upward, cuts_append_slash a hp, List.takeWhile_cons, upward]
  cases stop a <;> rfl

/-- **The directories above one made of components are made of fewer of them.** -/
theorem exists_of_upward {stop : List Char → Bool} {dir : List Char}
    {before after : List (List Char)} :
    ∀ {rs : List (List Char)}, rs ≠ [] → (∀ r ∈ rs, '/' ∉ r) →
      upward stop (joinComponents rs) = before ++ dir :: after →
        ∃ ps ds, rs = ps ++ ds ∧ ps ≠ [] ∧ dir = joinComponents ps ∧ ds.length = before.length ∧
          ∀ d ∈ ds, ∃ b ∈ before, ∃ a, b = a ++ '/' :: d := by
  induction before with
  | nil =>
      intro rs hne _ h
      have hdir : dir = joinComponents rs := (List.cons.inj h).1.symm
      exact ⟨rs, [], (List.append_nil rs).symm, hne, hdir, rfl,
        fun d hd => absurd hd List.not_mem_nil⟩
  | cons b before ih =>
      intro rs hne hslash h
      -- the last component is that of the first directory
      rcases List.eq_nil_or_concat rs with hnil | ⟨qs, r, hrs⟩
      · exact absurd hnil hne
      · rw [List.concat_eq_append] at hrs
        subst hrs
        have hr : '/' ∉ r := hslash r (by simp)
        by_cases hqs : qs = []
        · subst hqs
          rw [List.nil_append, joinComponents_singleton, upward_of_noSlash stop hr] at h
          have hlength := congrArg List.length h
          simp at hlength
        · rw [joinComponents_append hqs (List.cons_ne_nil _ _), joinComponents_singleton,
            upward_append_slash stop _ hr] at h
          obtain ⟨hb, hrest⟩ := List.cons.inj h
          split_ifs at hrest
          · have hlength := congrArg List.length hrest
            simp at hlength
          · obtain ⟨ps, ds, rfl, hps, hdir, hlength, hlast⟩ :=
              ih hqs (fun q hq => hslash q (List.mem_append_left _ hq)) hrest
            refine ⟨ps, ds ++ [r], List.append_assoc _ _ _, hps, hdir, by simp [hlength], ?_⟩
            intro d hd
            rcases List.mem_append.mp hd with hd | hd
            · obtain ⟨b', hb', hsplit⟩ := hlast d hd
              exact ⟨b', List.mem_cons_of_mem _ hb', hsplit⟩
            · rw [List.mem_singleton] at hd
              subst hd
              exact ⟨b, List.mem_cons_self, _, hb.symm⟩

/-! ## Above a URL -/

/-- A scheme and one slash is where the directories above a URL stop. -/
theorem isSchemeRoot_scheme {scheme : List Char} (h : '/' ∉ scheme) :
    isSchemeRoot ((if scheme.isEmpty then [] else scheme ++ [':']) ++ ['/']) = true := by
  cases scheme with
  | nil => rfl
  | cons c scheme =>
      have hname : ∀ d ∈ c :: scheme ++ [':'], (d != '/') = true := by
        intro d hd
        rw [bne_iff_ne]
        rintro rfl
        rcases List.mem_append.mp hd with hd | hd
        · exact h hd
        · exact absurd (List.mem_singleton.mp hd) (by decide)
      have htake : (c :: scheme ++ [':'] ++ ['/']).takeWhile (· != '/') = c :: scheme ++ [':'] := by
        rw [List.takeWhile_append_of_pos hname]
        simp
      have hdrop : (c :: scheme ++ [':'] ++ ['/']).dropWhile (· != '/') = ['/'] := by
        rw [List.dropWhile_append_of_pos hname]
        rfl
      have hlast : (c :: scheme ++ [':']).getLast? = some ':' := List.getLast?_concat
      rw [List.isEmpty_cons, if_neg Bool.false_ne_true, isSchemeRoot, htake, hdrop, hlast]
      simp

/-- **The directories above a URL keep its stem.** -/
theorem upward_stem {u : Url} (hu : u.Sound) (dir : List Char) :
    upward isSchemeRoot (u.stem ++ dir) =
      (upward (fun d => isSchemeRoot (u.stem ++ d)) dir).map (u.stem ++ ·) := by
  -- before the second slash of the stem there is nothing but a scheme
  have hcuts : ∃ top, cuts u.stem = top :: cuts top ∧ isSchemeRoot top = true := by
    refine ⟨_, ?_, isSchemeRoot_scheme hu.scheme⟩
    rw [← cuts_append_slash _ hu.authority, Url.stem, List.append_assoc]
    rfl
  obtain ⟨top, htop, hstop⟩ := hcuts
  have hend : ∀ ds : List (List Char), (ds ++ top :: cuts top).takeWhile (!isSchemeRoot ·) =
      ds.takeWhile (!isSchemeRoot ·) := by
    intro ds
    have hnone : (top :: cuts top).takeWhile (!isSchemeRoot ·) = [] := by
      rw [List.takeWhile_cons, hstop]
      rfl
    rw [List.takeWhile_append, hnone, List.append_nil]
    split_ifs with hall
    · exact ((List.takeWhile_prefix _).eq_of_length hall).symm
    · rfl
  rw [upward, upward, cuts_append, htop, hend, List.map_cons, List.takeWhile_map]
  rfl

/-! ## Ways -/

/-- The text of steps up. -/
def steps (k : Nat) : List Char :=
  (List.replicate k ['.', '.', '/']).flatten

theorem below?_eq_some_iff {dir path rest : List Char} :
    below? dir path = some rest ↔ path = dir ++ '/' :: rest := by
  rw [below?, List.isPrefixOf?_eq_some_iff_append_eq, List.append_assoc, eq_comm]
  rfl

theorem wayFrom?_append {path : List Char} {before : List (List Char)}
    (h : ∀ b ∈ before, below? b path = none) (dirs : List (List Char)) :
    ∀ up : Nat, wayFrom? path up (before ++ dirs) = wayFrom? path (up + before.length) dirs := by
  induction before with
  | nil => exact fun up => rfl
  | cons b before ih =>
      intro up
      have hrest := ih (fun b' hb' => h b' (List.mem_cons_of_mem _ hb')) (up + 1)
      have hlength : up + (before.length + 1) = up + 1 + before.length := by omega
      rw [List.cons_append, wayFrom?, h b List.mem_cons_self, List.length_cons, hlength, ← hrest]

/-- **The way to a path starts from the lowest directory that holds it.** -/
theorem relativeChars_of_ancestors {root dir rest : List Char} {before after : List (List Char)}
    (h : ancestors root = before ++ dir :: after)
    (hbefore : ∀ b ∈ before, below? b (dir ++ '/' :: rest) = none) :
    relativeChars root (dir ++ '/' :: rest) = steps before.length ++ rest := by
  have hbelow : below? dir (dir ++ '/' :: rest) = some rest := below?_eq_some_iff.mpr rfl
  rw [relativeChars, h, wayFrom?_append hbefore, wayFrom?, hbelow, Nat.zero_add]
  rfl

/-- A path in none of the directories stays as it is. -/
theorem relativeChars_of_forall {root path : List Char}
    (h : ∀ dir ∈ ancestors root, below? dir path = none) : relativeChars root path = path := by
  have hnone := wayFrom?_append h [] 0
  rw [List.append_nil] at hnone
  rw [relativeChars, hnone]
  rfl

end SourceMap.Path

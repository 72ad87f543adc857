import Mathlib
import SourceMap.Proofs.Path

/-!
# URLs taken apart

A URL is spelled as it was read (`toChars_of_ofChars?`). It has two slashes one after the other, so
that components put together are no URL (`ofChars?_joinComponents`). What stands before its path has
no slash but these two.
-/

set_option autoImplicit false

namespace SourceMap

namespace Url

/-! ## Parts -/

theorem slash_not_mem_takeWhile {p : Char → Bool} (hp : p '/' = false) (cs : List Char) :
    '/' ∉ cs.takeWhile p := by
  intro hmem
  have htrue := List.mem_takeWhile_imp hmem
  rw [hp] at htrue
  cases htrue

theorem isSchemeChar_slash : isSchemeChar '/' = false := by decide

theorem isHostChar_slash : isHostChar '/' = false := by decide

theorem isWord_slash : Text.isWord '/' = false := by decide

theorem isDecimal_slash : Text.isDecimal '/' = false := by decide

theorem splitScheme?_eq {cs scheme rest : List Char} (h : splitScheme? cs = some (scheme, rest)) :
    '/' ∉ scheme ∧
      cs = (if scheme.isEmpty then [] else scheme ++ [':']) ++ '/' :: '/' :: rest := by
  have hsplit : cs.takeWhile isSchemeChar ++ cs.dropWhile isSchemeChar = cs :=
    List.takeWhile_append_dropWhile
  have hslash := slash_not_mem_takeWhile isSchemeChar_slash cs
  unfold splitScheme? at h
  split at h
  · rename_i htake hdrop
    cases h
    rw [htake, hdrop] at hsplit
    exact ⟨List.not_mem_nil, hsplit.symm⟩
  · rename_i htake hdrop
    cases h
    rw [htake] at hslash
    rw [htake, hdrop] at hsplit
    exact ⟨hslash, by rw [← hsplit]; simp⟩
  · cases h

theorem splitAuth_eq {cs auth rest : List Char} (h : splitAuth cs = (auth, rest)) :
    '/' ∉ auth ∧ cs = (if auth.isEmpty then [] else auth ++ ['@']) ++ rest := by
  have hsplit : cs.takeWhile Text.isWord ++ cs.dropWhile Text.isWord = cs :=
    List.takeWhile_append_dropWhile
  have hslash := slash_not_mem_takeWhile isWord_slash cs
  unfold splitAuth at h
  split at h
  · rename_i more htake hdrop
    rw [htake] at hslash
    rw [htake, hdrop] at hsplit
    have hsplit' : more.takeWhile Text.isWord ++ more.dropWhile Text.isWord = more :=
      List.takeWhile_append_dropWhile
    have hslash' := slash_not_mem_takeWhile isWord_slash more
    split at h
    · rename_i htake' hdrop'
      rw [htake'] at hslash'
      rw [htake', hdrop'] at hsplit'
      cases h
      refine ⟨?_, ?_⟩
      · intro hmem
        rcases List.mem_append.mp hmem with hmem | hmem
        · exact hslash hmem
        · rcases List.mem_cons.mp hmem with heq | hmem
          · exact absurd heq (by decide)
          · exact hslash' hmem
      · rw [← hsplit, ← hsplit']
        simp
    · cases h
      exact ⟨List.not_mem_nil, rfl⟩
  · cases h
    exact ⟨List.not_mem_nil, rfl⟩

theorem splitPort_eq {cs port rest : List Char} (h : splitPort cs = (port, rest)) :
    '/' ∉ port ∧ cs = (if port.isEmpty then [] else ':' :: port) ++ rest := by
  unfold splitPort at h
  split at h
  · rename_i more
    have hsplit : more.takeWhile Text.isDecimal ++ more.dropWhile Text.isDecimal = more :=
      List.takeWhile_append_dropWhile
    have hslash := slash_not_mem_takeWhile isDecimal_slash more
    split at h
    · cases h
      exact ⟨List.not_mem_nil, rfl⟩
    · rename_i htake
      rw [htake] at hslash hsplit
      cases h
      exact ⟨hslash, by simp [hsplit]⟩
  · cases h
    exact ⟨List.not_mem_nil, rfl⟩

/-! ## The whole -/

/-- What stands between the two slashes and the path. -/
def authority (u : Url) : List Char :=
  (if u.auth.isEmpty then [] else u.auth ++ ['@']) ++ u.host ++
    (if u.port.isEmpty then [] else ':' :: u.port)

/-- What stands before the path. -/
def stem (u : Url) : List Char :=
  (if u.scheme.isEmpty then [] else u.scheme ++ [':']) ++ '/' :: '/' :: u.authority

theorem toChars_eq (u : Url) : u.toChars = u.stem ++ u.path := by
  simp [toChars, stem, authority]

/-- Whether the slashes before the path of a URL are where they belong. -/
structure Sound (u : Url) : Prop where
  scheme : '/' ∉ u.scheme
  authority : '/' ∉ u.authority

/-- **A URL is spelled as it was read.** -/
theorem toChars_of_ofChars? {cs : List Char} {u : Url} (h : ofChars? cs = some u) :
    u.toChars = cs ∧ u.Sound := by
  unfold ofChars? at h
  split at h
  · cases h
  split at h
  · cases h
  · rename_i scheme rest hscheme
    cases hauth : splitAuth rest with
    | mk auth rest₁ =>
        cases hport : splitPort (rest₁.dropWhile isHostChar) with
        | mk port path =>
            rw [hauth] at h
            dsimp only at h
            rw [hport] at h
            cases h
            obtain ⟨hschemeSlash, hcs⟩ := splitScheme?_eq hscheme
            obtain ⟨hauthSlash, hrest⟩ := splitAuth_eq hauth
            obtain ⟨hportSlash, hrest₁⟩ := splitPort_eq hport
            have hhost : rest₁ = rest₁.takeWhile isHostChar ++
                ((if port.isEmpty then [] else ':' :: port) ++ path) := by
              rw [← hrest₁, List.takeWhile_append_dropWhile]
            have hhostSlash := slash_not_mem_takeWhile isHostChar_slash rest₁
            generalize rest₁.takeWhile isHostChar = host at hhost hhostSlash ⊢
            refine ⟨?_, hschemeSlash, ?_⟩
            · rw [hcs, hrest, hhost]
              simp [toChars]
            · intro hmem
              simp only [authority, List.mem_append] at hmem
              rcases hmem with (hmem | hmem) | hmem
              · split_ifs at hmem
                · cases hmem
                · simp [hauthSlash] at hmem
              · exact hhostSlash hmem
              · split_ifs at hmem
                · cases hmem
                · simp [hportSlash] at hmem

/-- A URL has two slashes one after the other. -/
theorem exists_slashes {cs : List Char} {u : Url} (h : ofChars? cs = some u) :
    ∃ before after, cs = before ++ '/' :: '/' :: after := by
  have hspelled := (toChars_of_ofChars? h).1
  rw [toChars_eq, stem] at hspelled
  refine ⟨if u.scheme.isEmpty then [] else u.scheme ++ [':'], u.authority ++ u.path, ?_⟩
  rw [← hspelled, List.append_assoc]
  rfl

end Url

namespace Path

/-! ## Paths that are no URLs -/

/-- Whether no slash follows another. -/
def Collapsed (cs : List Char) : Prop :=
  cs.IsChain fun a b => ¬ (a = '/' ∧ b = '/')

theorem Collapsed.not_slashes {before after : List Char} :
    ¬ Collapsed (before ++ '/' :: '/' :: after) := by
  intro h
  have hright := (List.isChain_append.mp h).2.1
  exact (List.isChain_cons_cons.mp hright).1 ⟨rfl, rfl⟩

theorem collapsed_of_noSlash {p : List Char} (hp : '/' ∉ p) : Collapsed p := by
  induction p with
  | nil => exact .nil
  | cons c p ih =>
      refine List.isChain_cons.mpr ⟨?_, ih fun h => hp (List.mem_cons_of_mem _ h)⟩
      rintro d - ⟨rfl, -⟩
      exact hp List.mem_cons_self

/-- A component and a slash leave a text collapsed that does not start with a slash. -/
theorem Collapsed.append_slash {p cs : List Char} (hp : '/' ∉ p) (hcs : Collapsed cs)
    (hhead : cs.head? ≠ some '/') : Collapsed (p ++ '/' :: cs) := by
  refine List.isChain_append.mpr ⟨collapsed_of_noSlash hp, ?_, ?_⟩
  · refine List.isChain_cons.mpr ⟨?_, hcs⟩
    rintro c hc ⟨-, rfl⟩
    exact hhead hc
  · rintro c hc d - ⟨rfl, -⟩
    exact hp (List.mem_of_getLast? hc)

theorem Rest.collapsed {ps : List (List Char)} (h : Rest ps) : Collapsed (joinComponents ps) := by
  induction h with
  | last hp =>
      rw [joinComponents_singleton]
      exact collapsed_of_noSlash hp
  | cons hp _ hps ih =>
      rw [joinComponents_cons hps.ne_nil]
      exact ih.append_slash hp hps.head?_ne

theorem Separated.collapsed {ps : List (List Char)} (h : Separated ps) :
    Collapsed (joinComponents ps) := by
  cases h with
  | single hp =>
      rw [joinComponents_singleton]
      exact collapsed_of_noSlash hp
  | cons hp hps =>
      rw [joinComponents_cons hps.ne_nil]
      exact hps.collapsed.append_slash hp hps.head?_ne

/-- **Components that are put together are no URL.** -/
theorem ofChars?_joinComponents {ps : List (List Char)} (h : Separated ps) :
    Url.ofChars? (joinComponents ps) = none := by
  cases hurl : Url.ofChars? (joinComponents ps) with
  | none => rfl
  | some u =>
      obtain ⟨before, after, heq⟩ := Url.exists_slashes hurl
      have hcollapsed := h.collapsed
      rw [heq] at hcollapsed
      exact absurd hcollapsed Collapsed.not_slashes

end Path

end SourceMap

import Mathlib
import SourceMap.Path

/-!
# Normal forms of paths

Components are taken apart and put together again (`components_joinComponents`), and dots are
resolved part by part (`resolve_append`). A path that normalizing leaves as it is is the current
directory or made of components without dots to resolve (`exists_settled`).
-/

set_option autoImplicit false

namespace SourceMap.Path

/-! ## Components in order -/

/-- Components of what stands after a slash: none holds a slash, and none but the last is empty. -/
inductive Rest : List (List Char) → Prop
  | last {p : List Char} : '/' ∉ p → Rest [p]
  | cons {p : List Char} {ps : List (List Char)} : '/' ∉ p → p ≠ [] → Rest ps → Rest (p :: ps)

/-- Components of a text: the first may be empty too. -/
inductive Separated : List (List Char) → Prop
  | single {p : List Char} : '/' ∉ p → Separated [p]
  | cons {p : List Char} {ps : List (List Char)} : '/' ∉ p → Rest ps → Separated (p :: ps)

theorem Rest.ne_nil {ps : List (List Char)} (h : Rest ps) : ps ≠ [] := by
  cases h <;> exact List.cons_ne_nil _ _

theorem Rest.separated {ps : List (List Char)} (h : Rest ps) : Separated ps := by
  cases h with
  | last hp => exact .single hp
  | cons hp _ hps => exact .cons hp hps

theorem Separated.ne_nil {ps : List (List Char)} (h : Separated ps) : ps ≠ [] := by
  cases h <;> exact List.cons_ne_nil _ _

/-! ## Putting components together -/

@[simp] theorem joinComponents_nil : joinComponents [] = [] := List.intercalate_nil

@[simp] theorem joinComponents_singleton (p : List Char) : joinComponents [p] = p :=
  List.intercalate_singleton

theorem joinComponents_cons {p : List Char} {ps : List (List Char)} (h : ps ≠ []) :
    joinComponents (p :: ps) = p ++ '/' :: joinComponents ps := by
  rw [joinComponents, List.intercalate_cons_of_ne_nil h, List.append_assoc]
  rfl

theorem joinComponents_append {ps qs : List (List Char)} (hps : ps ≠ []) (hqs : qs ≠ []) :
    joinComponents (ps ++ qs) = joinComponents ps ++ '/' :: joinComponents qs := by
  induction ps with
  | nil => exact absurd rfl hps
  | cons p ps ih =>
      cases ps with
      | nil => rw [List.singleton_append, joinComponents_cons hqs, joinComponents_singleton]
      | cons p' ps =>
          have hrest := ih (List.cons_ne_nil _ _)
          rw [List.cons_append, joinComponents_cons (by simp), hrest,
            joinComponents_cons (List.cons_ne_nil _ _), List.append_assoc]
          rfl

/-- What stands after a slash does not start with one. -/
theorem Rest.head?_ne {ps : List (List Char)} (h : Rest ps) :
    (joinComponents ps).head? ≠ some '/' := by
  cases h with
  | @last p hp =>
      rw [joinComponents_singleton]
      intro hhead
      exact hp (List.mem_of_head? hhead)
  | @cons p ps hp hne hps =>
      rw [joinComponents_cons hps.ne_nil, List.head?_append_of_ne_nil _ hne]
      intro hhead
      exact hp (List.mem_of_head? hhead)

/-! ## Taking components apart -/

theorem beq_slash_of_not_mem {c : Char} {p : List Char} (h : '/' ∉ c :: p) :
    (c == '/') = false := by
  rw [beq_eq_false_iff_ne]
  rintro rfl
  exact h List.mem_cons_self

/-- A text has a first component. -/
theorem exists_components (cs : List Char) : ∃ p ps, components cs = p :: ps := by
  cases cs with
  | nil => exact ⟨[], [], rfl⟩
  | cons c cs =>
      rw [components]
      split
      all_goals exact ⟨_, _, rfl⟩

/-- A slash has something before it and something behind it. -/
theorem exists_components_slash (cs : List Char) :
    ∃ p ps, components ('/' :: cs) = [] :: p :: ps := by
  have hslash : ('/' == '/') = true := beq_self_eq_true _
  obtain ⟨p, ps, hps⟩ := exists_components cs
  rw [components, hslash, hps]
  cases p with
  | nil =>
      cases ps with
      | nil => exact ⟨[], [], rfl⟩
      | cons q qs => exact ⟨q, qs, rfl⟩
  | cons c p => exact ⟨c :: p, ps, rfl⟩

theorem components_of_noSlash {p : List Char} (hp : '/' ∉ p) : components p = [p] := by
  induction p with
  | nil => rfl
  | cons c p ih =>
      rw [components, beq_slash_of_not_mem hp, ih fun h => hp (List.mem_cons_of_mem _ h)]

/-- The first component ends at the first slash. -/
theorem components_append_slash {p cs : List Char} (hp : '/' ∉ p) (hcs : cs.head? ≠ some '/') :
    components (p ++ '/' :: cs) = p :: components cs := by
  induction p with
  | nil =>
      have hslash : ('/' == '/') = true := beq_self_eq_true _
      rw [List.nil_append, components, hslash]
      cases cs with
      | nil => rfl
      | cons c cs =>
          -- the component after the slash starts with a character
          have hc : (c == '/') = false := by
            rw [beq_eq_false_iff_ne]
            rintro rfl
            exact hcs rfl
          obtain ⟨q, qs, hq⟩ := exists_components cs
          simp only [components, hc, hq]
  | cons c p ih =>
      rw [List.cons_append, components, beq_slash_of_not_mem hp,
        ih fun h => hp (List.mem_cons_of_mem _ h)]

theorem Rest.components_eq {ps : List (List Char)} (h : Rest ps) :
    components (joinComponents ps) = ps := by
  induction h with
  | last hp => rw [joinComponents_singleton, components_of_noSlash hp]
  | cons hp _ hps ih =>
      rw [joinComponents_cons hps.ne_nil, components_append_slash hp hps.head?_ne, ih]

/-- **Components that are put together are taken apart again.** -/
theorem components_joinComponents {ps : List (List Char)} (h : Separated ps) :
    components (joinComponents ps) = ps := by
  cases h with
  | single hp => rw [joinComponents_singleton, components_of_noSlash hp]
  | cons hp hps =>
      rw [joinComponents_cons hps.ne_nil, components_append_slash hp hps.head?_ne,
        hps.components_eq]

/-- Components of a text are separated. -/
theorem separated_components (cs : List Char) : Separated (components cs) := by
  induction cs with
  | nil => exact .single List.not_mem_nil
  | cons c cs ih =>
      obtain ⟨p, ps, hps⟩ := exists_components cs
      rw [hps] at ih
      by_cases hc : c = '/'
      · subst hc
        have hslash : ('/' == '/') = true := beq_self_eq_true _
        rw [components, hslash, hps]
        -- a run of slashes separates once
        cases ih with
        | single hp =>
            cases p with
            | nil => exact .cons List.not_mem_nil (.last hp)
            | cons d p => exact .cons List.not_mem_nil (.last hp)
        | cons hp hrest =>
            cases p with
            | nil =>
                cases hrest with
                | last hq => exact .cons List.not_mem_nil (.last hq)
                | cons hq hne hqs => exact .cons List.not_mem_nil (.cons hq hne hqs)
            | cons d p => exact .cons List.not_mem_nil (.cons hp (List.cons_ne_nil _ _) hrest)
      · have hc' : (c == '/') = false := beq_eq_false_iff_ne.mpr hc
        have hnot (hp : '/' ∉ p) : '/' ∉ c :: p := by
          intro hmem
          rcases List.mem_cons.mp hmem with hslash | hmem
          · exact hc hslash.symm
          · exact hp hmem
        rw [components, hc', hps]
        cases ih with
        | single hp => exact .single (hnot hp)
        | cons hp hrest => exact .cons (hnot hp) hrest

/-! ## Resolving dots -/

/-- Whether a component is a name, which dots can take away. -/
def Name (p : List Char) : Prop :=
  p ≠ [] ∧ p ≠ ['.'] ∧ p ≠ ['.', '.']

theorem resolve_up (ps : List (List Char)) :
    resolve (['.', '.'] :: ps) = ((resolve ps).1 + 1, (resolve ps).2) := rfl

theorem resolve_replicate (k : Nat) (ps : List (List Char)) :
    resolve (List.replicate k ['.', '.'] ++ ps) = ((resolve ps).1 + k, (resolve ps).2) := by
  induction k with
  | zero => rfl
  | succ k ih => rw [List.replicate_succ, List.cons_append, resolve_up, ih, Nat.add_assoc]

/-- A name takes one step up away. -/
theorem resolve_name {p : List Char} (hp : Name p) {ps kept : List (List Char)} {up : Nat}
    (h : resolve ps = (up + 1, kept)) : resolve (p :: ps) = (up, kept) := by
  obtain ⟨hne, hdot, hup⟩ := hp
  rw [resolve, h]
  simp only [hne, hdot, hup, if_false]

/-- Components without dots stay as they are. -/
theorem resolve_of_forall {ps : List (List Char)} (h : ∀ p ∈ ps, p ≠ ['.'] ∧ p ≠ ['.', '.']) :
    resolve ps = (0, ps) := by
  induction ps with
  | nil => rfl
  | cons p ps ih =>
      obtain ⟨hdot, hup⟩ := h p List.mem_cons_self
      have hrest := ih fun q hq => h q (List.mem_cons_of_mem _ hq)
      rw [resolve, hrest]
      simp [hdot, hup]

/-- As many names as steps up follow are taken away. -/
theorem resolve_names {ds qs kept : List (List Char)} (hds : ∀ d ∈ ds, Name d) :
    ∀ {k : Nat}, resolve qs = (k + ds.length, kept) → resolve (ds ++ qs) = (k, kept) := by
  induction ds with
  | nil => exact fun h => h
  | cons d ds ih =>
      intro k h
      have hrest := ih (fun d' hd' => hds d' (List.mem_cons_of_mem _ hd')) (k := k + 1)
        (by rw [h, List.length_cons, Nat.add_assoc, Nat.add_comm 1])
      exact resolve_name (hds d List.mem_cons_self) hrest

/-- Dots are resolved part by part where no step leads out of the second part. -/
theorem resolve_append (ps : List (List Char)) {qs kept : List (List Char)}
    (h : resolve qs = (0, kept)) :
    resolve (ps ++ qs) = ((resolve ps).1, (resolve ps).2 ++ kept) := by
  induction ps with
  | nil => exact h
  | cons p ps ih =>
      rw [List.cons_append, resolve, resolve, ih]
      by_cases hdot : p = ['.']
      · simp only [if_pos hdot]
      · by_cases hup : p = ['.', '.']
        · simp only [if_neg hdot, if_pos hup]
        · by_cases hne : p = []
          · simp only [if_neg hdot, if_neg hup, if_pos hne, List.cons_append]
          · simp only [if_neg hdot, if_neg hup, if_neg hne]
            cases (resolve ps).1 with
            | zero => rfl
            | succ up => rfl

theorem resolved_eq (ps : List (List Char)) :
    resolved ps = List.replicate (resolve ps).1 ['.', '.'] ++ (resolve ps).2 := rfl

/-- An absolute path keeps the empty component it starts with, and no step leads out of it. -/
theorem resolved_nil_cons (ps : List (List Char)) :
    resolved ([] :: ps) = [] :: (resolve ps).2 := rfl

theorem resolved_append (ps : List (List Char)) {qs kept : List (List Char)}
    (h : resolve qs = (0, kept)) : resolved (ps ++ qs) = resolved ps ++ kept := by
  rw [resolved_eq, resolve_append ps h, resolved_eq, List.append_assoc]

/-- What is kept are components without dots. -/
theorem mem_resolve {ps : List (List Char)} {p : List Char} (h : p ∈ (resolve ps).2) :
    p ∈ ps ∧ p ≠ ['.'] ∧ p ≠ ['.', '.'] := by
  induction ps with
  | nil => exact absurd h List.not_mem_nil
  | cons q qs ih =>
      have hrest (hmem : p ∈ (resolve qs).2) : p ∈ q :: qs ∧ p ≠ ['.'] ∧ p ≠ ['.', '.'] :=
        ⟨List.mem_cons_of_mem _ (ih hmem).1, (ih hmem).2⟩
      rw [resolve] at h
      by_cases hdot : q = ['.']
      · exact hrest (by simpa only [if_pos hdot] using h)
      · by_cases hup : q = ['.', '.']
        · exact hrest (by simpa only [if_neg hdot, if_pos hup] using h)
        · have hcons (hmem : p ∈ q :: (resolve qs).2) :
              p ∈ q :: qs ∧ p ≠ ['.'] ∧ p ≠ ['.', '.'] := by
            rcases List.mem_cons.mp hmem with rfl | hmem
            · exact ⟨List.mem_cons_self, hdot, hup⟩
            · exact hrest hmem
          simp only [if_neg hdot, if_neg hup] at h
          split_ifs at h
          · exact hcons h
          · split at h
            · exact hcons h
            · exact hrest h

/-- No single dot is left. -/
theorem dot_not_mem_resolved (ps : List (List Char)) : ['.'] ∉ resolved ps := by
  intro hmem
  rw [resolved_eq] at hmem
  rcases List.mem_append.mp hmem with hmem | hmem
  · exact absurd (List.eq_of_mem_replicate hmem) (by decide)
  · exact (mem_resolve hmem).2.1 rfl

/-- Where nothing is left to resolve, and no step up comes first, there is none at all. -/
theorem resolve_of_settled {ps : List (List Char)} (h : resolved ps = ps)
    (hup : ps.head? ≠ some ['.', '.']) : resolve ps = (0, ps) := by
  rw [resolved_eq] at h
  cases hk : (resolve ps).1 with
  | zero =>
      rw [hk] at h
      exact Prod.ext hk h
  | succ k =>
      rw [hk, List.replicate_succ] at h
      refine absurd ?_ hup
      rw [← h]
      rfl

/-! ## Normal forms -/

/-- Resolving keeps components in order, as far as any are left. -/
theorem Rest.resolve {ps : List (List Char)} (h : Rest ps) :
    (resolve ps).2 = [] ∨ Rest (resolve ps).2 := by
  induction h with
  | @last p hp =>
      by_cases hdots : p ≠ ['.'] ∧ p ≠ ['.', '.']
      · rw [resolve_of_forall (by simpa using hdots)]
        exact Or.inr (.last hp)
      · refine Or.inl ?_
        by_cases hdot : p = ['.']
        · rw [hdot]
          rfl
        · have hup : p = ['.', '.'] := by
            by_contra hup
            exact hdots ⟨hdot, hup⟩
          rw [hup]
          rfl
  | @cons p ps hp hne hps ih =>
      have hcons : Rest (p :: (Path.resolve ps).2) := by
        rcases ih with hnil | hrest
        · rw [hnil]
          exact .last hp
        · exact .cons hp hne hrest
      rw [Path.resolve]
      simp only [if_neg hne]
      split_ifs
      · exact ih
      · exact ih
      · split
        · exact Or.inr hcons
        · exact ih

theorem Rest.of_forall {ps ts : List (List Char)} (hps : ∀ p ∈ ps, '/' ∉ p ∧ p ≠ [])
    (hts : Rest ts) : Rest (ps ++ ts) := by
  induction ps with
  | nil => exact hts
  | cons p ps ih =>
      obtain ⟨hslash, hne⟩ := hps p List.mem_cons_self
      exact .cons hslash hne (ih fun q hq => hps q (List.mem_cons_of_mem _ hq))

/-- Steps up come before what is in order. -/
theorem Rest.steps {ts : List (List Char)} (hts : Rest ts) (k : Nat) :
    Rest (List.replicate k ['.', '.'] ++ ts) := by
  apply Rest.of_forall _ hts
  intro p hp
  rw [List.eq_of_mem_replicate hp]
  decide

theorem Rest.resolved {ps : List (List Char)} (h : Rest ps) :
    resolved ps = [] ∨ Rest (resolved ps) := by
  rw [resolved_eq]
  rcases h.resolve with hnil | hrest
  · -- nothing but steps up is left, if anything is
    rw [hnil, List.append_nil]
    cases (Path.resolve ps).1 with
    | zero => exact Or.inl rfl
    | succ k =>
        rw [List.replicate_succ']
        exact Or.inr ((Rest.last (by decide)).steps k)
  · exact Or.inr (hrest.steps _)

theorem Separated.resolved {ps : List (List Char)} (h : Separated ps) :
    resolved ps = [] ∨ Separated (resolved ps) := by
  cases h with
  | @single p hp =>
      rcases (Rest.last hp).resolved with hnil | hrest
      · exact Or.inl hnil
      · exact Or.inr hrest.separated
  | @cons p ps hp hps =>
      by_cases hne : p = []
      · -- a text that starts with a slash
        subst hne
        rw [resolved_nil_cons]
        rcases hps.resolve with hnil | hrest
        · rw [hnil]
          exact Or.inr (.single hp)
        · exact Or.inr (.cons hp hrest)
      · rcases (Rest.cons hp hne hps).resolved with hnil | hrest
        · exact Or.inl hnil
        · exact Or.inr hrest.separated

theorem normalizePath_of_ne_nil {cs : List Char}
    (h : joinComponents (resolved (components cs)) ≠ []) :
    normalizePath cs = joinComponents (resolved (components cs)) := by
  rw [normalizePath]
  split
  · rename_i hnil
    exact absurd hnil h
  · rename_i heq
    exact heq.symm

theorem normalizePath_joinComponents {ps : List (List Char)} (h : Separated ps)
    (hne : joinComponents (resolved ps) ≠ []) :
    normalizePath (joinComponents ps) = joinComponents (resolved ps) := by
  rw [← components_joinComponents h] at hne
  rw [normalizePath_of_ne_nil hne, components_joinComponents h]

theorem normalizeChars_of_none {cs : List Char} (h : Url.ofChars? cs = none) :
    normalizeChars cs = normalizePath cs := by
  rw [normalizeChars, h]

/-- **A path in normal form is the current directory, or there is nothing in it to resolve.** -/
theorem exists_settled {cs : List Char} (h : normalizePath cs = cs) : cs = ['.'] ∨
    ∃ ps, Separated ps ∧ resolved ps = ps ∧ cs = joinComponents ps := by
  have hseparated := separated_components cs
  rw [normalizePath] at h
  split at h
  · -- nothing is left of the path
    split_ifs at h
    · refine Or.inr ⟨[[], []], .cons List.not_mem_nil (.last List.not_mem_nil), rfl, h.symm⟩
    · exact Or.inl h.symm
  · rename_i c rest heq
    rw [h] at heq
    have hsettled : resolved (components cs) = components cs := by
      rcases hseparated.resolved with hnil | hresolved
      · rw [hnil, joinComponents_nil] at heq
        rw [← heq] at h
        cases h
      · have hback := components_joinComponents hresolved
        rw [heq] at hback
        exact hback.symm
    rw [hsettled] at heq
    exact Or.inr ⟨components cs, hseparated, hsettled, heq.symm⟩

end SourceMap.Path

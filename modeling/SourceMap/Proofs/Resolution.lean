import Mathlib
import SourceMap.Proofs.Url

/-!
# Dots resolved from the left

A path is cut at its runs of slashes (`cut_iff`), and its components are put on a stack one by one:
a step up takes the name before it away. This comes to the same as resolving from the last component
to the first (`foldl_push_components`), and so does deleting the resolved components from the list
that is walked through, where no deletion is out of range (`resolveInPlace_eq`).
-/

set_option autoImplicit false

namespace SourceMap.Path

/-! ## Cutting at runs of slashes -/

/-- Whether components are what stands between the runs of slashes of a text. -/
inductive Cut : List Char → List (List Char) → Prop
  | last {p : List Char} : '/' ∉ p → Cut p [p]
  | run {p cs : List Char} {ps : List (List Char)} (k : Nat) : '/' ∉ p → cs.head? ≠ some '/' →
      Cut cs ps → Cut (p ++ List.replicate (k + 1) '/' ++ cs) (p :: ps)

/-- A slash before a slash separates nothing. -/
theorem components_slash_slash (cs : List Char) :
    components ('/' :: '/' :: cs) = components ('/' :: cs) := by
  obtain ⟨q, qs, hq⟩ := exists_components_slash cs
  rw [components, beq_self_eq_true, hq]

/-- The first component ends at the first run of slashes. -/
theorem components_append_run {p cs : List Char} (hp : '/' ∉ p) (hcs : cs.head? ≠ some '/')
    (k : Nat) : components (p ++ List.replicate (k + 1) '/' ++ cs) = p :: components cs := by
  induction p with
  | nil =>
      induction k with
      | zero => exact components_append_slash hp hcs
      | succ k ih => exact (components_slash_slash _).trans ih
  | cons c p ih =>
      rw [List.cons_append, List.cons_append, components, beq_slash_of_not_mem hp,
        ih fun h => hp (List.mem_cons_of_mem _ h)]

/-- A slash in front of a text that is cut makes its first run longer, or is a run of its own. -/
theorem Cut.cons_slash {cs : List Char} {ps : List (List Char)} (h : Cut cs ps) :
    ∃ qs, Cut ('/' :: cs) qs := by
  cases h with
  | last hp =>
      have hhead : cs.head? ≠ some '/' := fun hhead => hp (List.mem_of_mem_head? hhead)
      exact ⟨_, .run 0 List.not_mem_nil hhead (.last hp)⟩
  | @run p cs ps k hp hcs hrest =>
      cases p with
      | nil => exact ⟨_, .run (k + 1) List.not_mem_nil hcs hrest⟩
      | cons c p =>
          have hhead : (c :: p ++ List.replicate (k + 1) '/' ++ cs).head? ≠ some '/' := by
            intro hhead
            exact hp (List.mem_of_mem_head? hhead)
          exact ⟨_, .run 0 List.not_mem_nil hhead (.run k hp hcs hrest)⟩

/-- Any other character in front of a text that is cut belongs to its first component. -/
theorem Cut.cons_char {c : Char} {cs : List Char} {ps : List (List Char)} (h : Cut cs ps)
    (hc : c ≠ '/') : ∃ qs, Cut (c :: cs) qs := by
  have hnot {p : List Char} (hp : '/' ∉ p) : '/' ∉ c :: p := by
    simp [hp, hc.symm]
  cases h with
  | last hp => exact ⟨_, .last (hnot hp)⟩
  | run k hp hcs hrest => exact ⟨_, .run k (hnot hp) hcs hrest⟩

theorem Cut.exists (cs : List Char) : ∃ ps, Cut cs ps := by
  induction cs with
  | nil => exact ⟨_, .last List.not_mem_nil⟩
  | cons c cs ih =>
      obtain ⟨ps, hps⟩ := ih
      by_cases hc : c = '/'
      · rw [hc]
        exact hps.cons_slash
      · exact hps.cons_char hc

/-- **The components of a text are what stands between its runs of slashes.** -/
theorem cut_iff {cs : List Char} {ps : List (List Char)} : Cut cs ps ↔ ps = components cs := by
  have heq {qs : List (List Char)} (h : Cut cs qs) : qs = components cs := by
    induction h with
    | last hp => exact (components_of_noSlash hp).symm
    | run k hp hcs _ ih => rw [components_append_run hp hcs, ih]
  constructor
  · exact heq
  · rintro rfl
    obtain ⟨qs, hqs⟩ := Cut.exists cs
    rwa [← heq hqs]

/-! ## From the left -/

instance : DecidablePred Name :=
  fun p => inferInstanceAs (Decidable (p ≠ [] ∧ p ≠ ['.'] ∧ p ≠ ['.', '.']))

/-- Puts one more component on a stack, whose top is its end. A dot is left out. A step up takes the
name on top of the stack away and is left out itself right after the empty component of an absolute
path; elsewhere it stays. -/
def push (stack : List (List Char)) (p : List Char) : List (List Char) :=
  if p = ['.'] then stack
  else if p = ['.', '.'] then
    if ∃ q ∈ stack.getLast?, Name q then stack.dropLast
    else if stack = [[]] then stack
    else stack ++ [p]
  else stack ++ [p]

theorem push_of_ne {p : List Char} (hdot : p ≠ ['.']) (hup : p ≠ ['.', '.'])
    (stack : List (List Char)) : push stack p = stack ++ [p] := by
  simp [push, hdot, hup]

/-- A step up takes back a name that was put on the stack just before it. -/
theorem push_up_name {p : List Char} (hp : Name p) (stack : List (List Char)) :
    push (stack ++ [p]) ['.', '.'] = stack := by
  simp [push, hp]

/-- Steps up from the top lead nowhere. -/
theorem foldl_push_top (k : Nat) : (List.replicate k ['.', '.']).foldl push [[]] = [[]] := by
  have hname : ¬ Name [] := fun h => h.1 rfl
  induction k with
  | zero => rfl
  | succ k ih =>
      have hstep : push [[]] ['.', '.'] = [[]] := by simp [push, hname]
      rw [List.replicate_succ, List.foldl_cons, hstep, ih]

/-- Steps up stay where no name is before them. -/
theorem foldl_push_replicate (j k : Nat) :
    (List.replicate k ['.', '.']).foldl push (List.replicate j ['.', '.']) =
      List.replicate (j + k) ['.', '.'] := by
  induction k generalizing j with
  | zero => rfl
  | succ k ih =>
      have hstep : push (List.replicate j ['.', '.']) ['.', '.'] =
          List.replicate (j + 1) ['.', '.'] := by
        have hname : ¬ ∃ q ∈ (List.replicate j ['.', '.']).getLast?, Name q := by
          rintro ⟨q, hq, hname⟩
          exact hname.2.2 (List.eq_of_mem_replicate (List.mem_of_getLast? hq))
        have htop : List.replicate j ['.', '.'] ≠ [[]] := by
          intro htop
          have hmem : [] ∈ List.replicate j ['.', '.'] := by simp [htop]
          exact absurd (List.eq_of_mem_replicate hmem) (by decide)
        rw [push, if_neg (by decide), if_pos rfl, if_neg hname, if_neg htop, List.replicate_succ']
      rw [List.replicate_succ, List.foldl_cons, hstep, ih, Nat.add_assoc, Nat.add_comm 1]

/-- **What is pushed comes down to its steps up and what is kept behind them.** -/
theorem Rest.foldl_push {ps : List (List Char)} (h : Rest ps) (stack : List (List Char)) :
    ps.foldl push stack =
      (List.replicate (Path.resolve ps).1 ['.', '.']).foldl push stack ++ (Path.resolve ps).2 := by
  induction h generalizing stack with
  | @last p hp =>
      by_cases hdot : p = ['.']
      · rw [hdot]
        exact (List.append_nil stack).symm
      · by_cases hup : p = ['.', '.']
        · rw [hup]
          exact (List.append_nil _).symm
        · rw [resolve_of_forall (by simp [hdot, hup])]
          exact push_of_ne hdot hup stack
  | @cons p ps hp hne hps ih =>
      rw [List.foldl_cons, ih, Path.resolve]
      by_cases hdot : p = ['.']
      · simp [hdot, push]
      · by_cases hup : p = ['.', '.']
        · -- one step up more has to be taken, and it is the first
          simp [hup, List.replicate_succ]
        · simp only [if_neg hdot, if_neg hup, if_neg hne, push_of_ne hdot hup]
          cases hk : (Path.resolve ps).1 with
          | zero => simp
          | succ k => simp [List.replicate_succ, push_up_name ⟨hne, hdot, hup⟩]

/-- **Resolving from the left gives what resolving from the right gives.** -/
theorem Separated.foldl_push {ps : List (List Char)} (h : Separated ps) :
    ps.foldl push [] = Path.resolved ps := by
  have hrest {qs : List (List Char)} (hqs : Rest qs) : qs.foldl push [] = Path.resolved qs := by
    have hups := foldl_push_replicate 0 (Path.resolve qs).1
    rw [List.replicate_zero, Nat.zero_add] at hups
    rw [hqs.foldl_push, hups, resolved_eq]
  cases h with
  | single hp => exact hrest (.last hp)
  | @cons p ps hp hps =>
      by_cases hne : p = []
      · -- an absolute path
        have hfirst : push [] [] = [[]] := push_of_ne (by decide) (by decide) []
        rw [hne, List.foldl_cons, hfirst, hps.foldl_push, foldl_push_top, resolved_nil_cons]
        rfl
      · exact hrest (.cons hp hne hps)

theorem foldl_push_components (cs : List Char) :
    (components cs).foldl push [] = resolved (components cs) :=
  (separated_components cs).foldl_push

/-! ## In place -/

/-- A list without its elements from the index `start` up to `stop`, which must not be out of
range. -/
def drain? {α : Type} (xs : List α) (start stop : Nat) : Option (List α) :=
  if start ≤ stop ∧ stop ≤ xs.length then some (xs.take start ++ xs.drop stop) else none

/-- Resolves the dots of a list of components by deleting from it, from the component before the
index to the first. The steps up that are still to be taken are right behind the index. Nothing is
given where an index would be out of range. -/
def resolveInPlace : (index : Nat) → (parts : List (List Char)) → (up : Nat) →
    Option (List (List Char))
  | 0, parts, _ => some parts
  | index + 1, parts, up =>
    match parts[index]? with
    | none => none
    | some p =>
      if p = ['.'] then
        (drain? parts index (index + 1)).bind fun parts => resolveInPlace index parts up
      else if p = ['.', '.'] then resolveInPlace index parts (up + 1)
      else if up = 0 then resolveInPlace index parts 0
      else if p = [] then
        -- above the root there is nothing
        (drain? parts (index + 1) (min (index + 1 + up) parts.length)).bind fun parts =>
          resolveInPlace index parts 0
      else (drain? parts index (index + 2)).bind fun parts => resolveInPlace index parts (up - 1)

/-- What stands in the middle of a list can be deleted. -/
theorem drain?_append {α : Type} {xs ys zs : List α} {start stop : Nat} (hstart : start = xs.length)
    (hstop : stop = start + ys.length) : drain? (xs ++ ys ++ zs) start stop = some (xs ++ zs) := by
  have hrange : start ≤ stop ∧ stop ≤ (xs ++ ys ++ zs).length := by
    simp only [List.length_append]
    omega
  have hlength : stop = (xs ++ ys).length := by
    rw [List.length_append, ← hstart, hstop]
  rw [drain?, if_pos hrange, hlength, List.drop_left, List.append_assoc, hstart, List.take_left]

/-- **One component more is resolved by one step**, and nothing that is deleted is out of range. -/
theorem resolveInPlace_step (front back : List (List Char)) (p : List Char) :
    resolveInPlace (front.length + 1) (front ++ p :: resolved back) (resolve back).1 =
      resolveInPlace front.length (front ++ resolved (p :: back)) (resolve (p :: back)).1 := by
  have hget : (front ++ p :: resolved back)[front.length]? = some p := by simp
  rw [resolveInPlace, hget]
  dsimp only
  by_cases hdot : p = ['.']
  · rw [if_pos hdot, List.append_cons, drain?_append rfl (by simp), hdot]
    rfl
  by_cases hup : p = ['.', '.']
  · rw [if_neg hdot, if_pos hup, hup]
    rfl
  rw [if_neg hdot, if_neg hup, resolved_eq back, resolved_eq (p :: back)]
  cases h : resolve back with
  | mk up kept =>
      dsimp only
      cases up with
      | zero =>
          have hresolve : resolve (p :: back) = (0, p :: kept) := by
            simp [resolve, h, hdot, hup]
          rw [if_pos rfl, hresolve]
          rfl
      | succ up =>
          rw [if_neg (Nat.succ_ne_zero up)]
          by_cases hne : p = []
          · -- the steps up that are right behind the root lead nowhere
            have hresolve : resolve (p :: back) = (0, p :: kept) := by
              simp [resolve, h, hne]
            have hsplit : front ++ p :: (List.replicate (up + 1) ['.', '.'] ++ kept) =
                front ++ [p] ++ List.replicate (up + 1) ['.', '.'] ++ kept := by
              simp
            have hstop : min (front.length + 1 + (up + 1))
                (front ++ [p] ++ List.replicate (up + 1) ['.', '.'] ++ kept).length =
                  front.length + 1 + (up + 1) := by
              simp only [List.length_append, List.length_replicate, List.length_singleton]
              omega
            rw [if_pos hne, hsplit, hstop, drain?_append (by simp) (by simp), Option.bind_some,
              hresolve, List.append_assoc]
            rfl
          · have hresolve : resolve (p :: back) = (up, kept) := resolve_name ⟨hne, hdot, hup⟩ h
            have hsplit : front ++ p :: (List.replicate (up + 1) ['.', '.'] ++ kept) =
                front ++ [p, ['.', '.']] ++ (List.replicate up ['.', '.'] ++ kept) := by
              simp [List.replicate_succ]
            rw [if_neg hne, hsplit, drain?_append rfl (by simp), Option.bind_some, hresolve]
            rfl

/-- **Nothing is out of range.** Where the components behind the index are resolved, with their
steps up first, deleting from the list resolves all of it. -/
theorem resolveInPlace_append (front back : List (List Char)) :
    resolveInPlace front.length (front ++ resolved back) (resolve back).1 =
      some (resolved (front ++ back)) := by
  induction front using List.reverseRecOn generalizing back with
  | nil => rfl
  | append_singleton front p ih =>
      rw [List.length_append, List.length_singleton, ← List.append_cons, ← List.append_cons,
        resolveInPlace_step, ih]

theorem resolveInPlace_eq (ps : List (List Char)) :
    resolveInPlace ps.length ps 0 = some (resolved ps) := by
  have h := resolveInPlace_append ps []
  have hnil : resolved [] = [] := rfl
  rwa [hnil, List.append_nil] at h

/-! ## Normalizing -/

/-- A text that is left of a path; if nothing is, the root or the current directory. -/
def orTop (path joined : List Char) : List Char :=
  if joined ≠ [] then joined else if path.head? = some '/' then ['/'] else ['.']

/-- A path that is no URL is absolute just if it starts with a slash. -/
theorem normalizePath_eq_orTop {cs : List Char} (h : Url.ofChars? cs = none) :
    normalizePath cs = orTop cs (joinComponents (resolved (components cs))) := by
  have habsolute : isAbsoluteChars cs = true ↔ cs.head? = some '/' := by
    simp [isAbsoluteChars, h]
  rw [normalizePath, orTop]
  cases joinComponents (resolved (components cs)) with
  | nil => simp [habsolute]
  | cons c rest => rfl

/-- **Normalizing resolves dots from the left.** A path that is no URL is cut at its runs of
slashes, its components are put on a stack, and what is on it in the end is put together. So it
comes out if components are deleted from the list of all of them, and no deletion is out of
range. -/
theorem normalize_eq_foldl_push {s : String} (h : Url.parse? s = none) :
    ∃ parts, (∀ ps, Cut s.toList ps ↔ ps = parts) ∧
      normalize s = String.ofList (orTop s.toList (joinComponents (parts.foldl push []))) ∧
      resolveInPlace parts.length parts 0 = some (parts.foldl push []) := by
  have hpath : normalizeChars s.toList = normalizePath s.toList := normalizeChars_of_none h
  refine ⟨components s.toList, fun ps => cut_iff, ?_, ?_⟩
  · rw [normalize, hpath, normalizePath_eq_orTop h, foldl_push_components]
  · rw [resolveInPlace_eq, foldl_push_components]

/-- Steps up that take names away, stay, and lead nowhere. -/
theorem normalize_eq_foldl_push_steps :
    Url.parse? "./a//b/../../../c/" = none ∧ normalize "./a//b/../../../c/" = "../c/" ∧
      Url.parse? "/a/.././../" = none ∧ normalize "/a/.././../" = "/" := by
  have hrelative : Url.parse? "./a//b/../../../c/" = none := by decide +kernel
  have habsolute : Url.parse? "/a/.././../" = none := by decide +kernel
  obtain ⟨parts, hparts, hnormal, -⟩ := normalize_eq_foldl_push hrelative
  obtain ⟨parts', hparts', hnormal', -⟩ := normalize_eq_foldl_push habsolute
  have hcut := (hparts _).mp (cut_iff.mpr rfl)
  have hcut' := (hparts' _).mp (cut_iff.mpr rfl)
  refine ⟨hrelative, ?_, habsolute, ?_⟩
  · rw [hnormal, ← hcut]
    decide +kernel
  · rw [hnormal', ← hcut']
    decide +kernel

end SourceMap.Path

import Mathlib

/-!
# Repetitions

`List.eraseReps` keeps one element of each run of equal ones. Leaving out repetitions goes together
with taking or dropping elements from the front (`eraseReps_takeWhile`, `eraseReps_dropWhile`) and
with looking for the first element of some kind (`find?_eraseReps`). Sorted lists with the same
elements differ in repetitions only (`eraseReps_eq_of_pairwise`).
-/

set_option autoImplicit false

namespace SourceMap

variable {α β : Type} [BEq α]

/-! ## Runs of equal elements -/

theorem eraseRepsBy_loop_eq_append (as : List α) :
    ∀ (a : α) (acc : List α), List.eraseRepsBy.loop (· == ·) a as acc =
      acc.reverse ++ List.eraseRepsBy.loop (· == ·) a as [] := by
  induction as with
  | nil =>
      intro a acc
      simp [List.eraseRepsBy.loop]
  | cons b as ih =>
      intro a acc
      rw [List.eraseRepsBy.loop, List.eraseRepsBy.loop]
      split
      · exact ih a acc
      · rw [ih b (a :: acc), ih b [a], List.reverse_cons, List.append_assoc]
        rfl

/-- Of two equal elements in a row one is left out. -/
theorem eraseReps_cons_cons (a b : α) (as : List α) :
    (a :: b :: as).eraseReps =
      if a == b then (a :: as).eraseReps else a :: (b :: as).eraseReps := by
  show List.eraseRepsBy.loop (· == ·) a (b :: as) [] = _
  rw [List.eraseRepsBy.loop]
  cases hab : a == b with
  | true => rfl
  | false => exact eraseRepsBy_loop_eq_append as b [a]

theorem eraseReps_cons_sublist (as : List α) :
    ∀ a : α, (a :: as).eraseReps.Sublist (a :: as) := by
  induction as with
  | nil =>
      intro a
      exact List.Sublist.refl _
  | cons b as ih =>
      intro a
      rw [eraseReps_cons_cons]
      split
      · exact (ih a).trans ((List.sublist_cons_self b as).cons_cons a)
      · exact (ih b).cons_cons a

/-- Leaving out repetitions takes nothing apart. -/
theorem eraseReps_sublist (as : List α) : as.eraseReps.Sublist as := by
  cases as with
  | nil => exact List.Sublist.refl _
  | cons a as => exact eraseReps_cons_sublist as a

theorem mem_eraseReps_cons [LawfulBEq α] {x : α} (as : List α) :
    ∀ a : α, x ∈ (a :: as).eraseReps ↔ x ∈ a :: as := by
  induction as with
  | nil =>
      intro a
      exact Iff.rfl
  | cons b as ih =>
      intro a
      rw [eraseReps_cons_cons]
      split
      · rename_i hab
        rw [ih a, eq_of_beq hab]
        simp
      · rw [List.mem_cons, ih b, List.mem_cons (b := a)]

/-- Leaving out repetitions loses no element. -/
theorem mem_eraseReps [LawfulBEq α] {x : α} {as : List α} : x ∈ as.eraseReps ↔ x ∈ as := by
  cases as with
  | nil => exact Iff.rfl
  | cons a as => exact mem_eraseReps_cons as a

/-- What comes first stays first. -/
theorem exists_eraseReps_cons (as : List α) : ∀ a : α, ∃ rest, (a :: as).eraseReps = a :: rest := by
  induction as with
  | nil => exact fun a => ⟨[], rfl⟩
  | cons b as ih =>
      intro a
      rw [eraseReps_cons_cons]
      split
      · exact ih a
      · exact ⟨_, rfl⟩

/-! ## Parts and images -/

section

variable [LawfulBEq α]

theorem eraseReps_self_cons (a : α) (as : List α) :
    (a :: a :: as).eraseReps = (a :: as).eraseReps := by
  rw [eraseReps_cons_cons, if_pos (beq_self_eq_true a)]

theorem eraseReps_cons_of_ne {a b : α} (h : a ≠ b) (as : List α) :
    (a :: b :: as).eraseReps = a :: (b :: as).eraseReps := by
  rw [eraseReps_cons_cons, if_neg (by simpa using h)]

/-- What is taken from the front loses just its own repetitions. -/
theorem eraseReps_takeWhile (p : α → Bool) :
    ∀ as : List α, (as.takeWhile p).eraseReps = as.eraseReps.takeWhile p
  | [] => rfl
  | [a] => by
      show ([a].takeWhile p).eraseReps = [a].takeWhile p
      cases ha : p a <;> simp [ha] <;> rfl
  | a :: b :: as => by
      have ih := eraseReps_takeWhile p (b :: as)
      cases ha : p a with
      | false =>
          obtain ⟨rest, hrest⟩ := exists_eraseReps_cons (b :: as) a
          simp [hrest, ha]
          rfl
      | true =>
          by_cases hab : a = b
          · subst hab
            rw [eraseReps_self_cons, ← ih]
            simp [ha, eraseReps_self_cons]
          · rw [eraseReps_cons_of_ne hab, List.takeWhile_cons_of_pos ha,
              List.takeWhile_cons_of_pos ha, ← ih]
            cases hb : p b with
            | false => simp [hb]; rfl
            | true => simp [hb, eraseReps_cons_of_ne hab]

/-- What is left when the front is dropped loses just its own repetitions. -/
theorem eraseReps_dropWhile (p : α → Bool) :
    ∀ as : List α, (as.dropWhile p).eraseReps = as.eraseReps.dropWhile p
  | [] => rfl
  | [a] => by
      show ([a].dropWhile p).eraseReps = [a].dropWhile p
      cases ha : p a <;> simp [ha] <;> rfl
  | a :: b :: as => by
      have ih := eraseReps_dropWhile p (b :: as)
      cases ha : p a with
      | false =>
          obtain ⟨rest, hrest⟩ := exists_eraseReps_cons (b :: as) a
          simp [hrest, ha]
      | true =>
          by_cases hab : a = b
          · subst hab
            rw [eraseReps_self_cons, ← ih]
            simp [ha]
          · rw [eraseReps_cons_of_ne hab, List.dropWhile_cons_of_pos ha,
              List.dropWhile_cons_of_pos ha, ih]

/-- The first element of some kind is none of those that are left out. -/
theorem find?_eraseReps (p : α → Bool) : ∀ as : List α, as.eraseReps.find? p = as.find? p
  | [] => rfl
  | [a] => rfl
  | a :: b :: as => by
      have ih := find?_eraseReps p (b :: as)
      by_cases hab : a = b
      · subst hab
        rw [eraseReps_self_cons, ih]
        cases ha : p a <;> simp [ha]
      · rw [eraseReps_cons_of_ne hab, List.find?_cons, List.find?_cons, ih]

/-- Repetitions in a list are repetitions in what is made of its elements. -/
theorem eraseReps_map [BEq β] [LawfulBEq β] (f : α → β) :
    ∀ as : List α, (as.eraseReps.map f).eraseReps = (as.map f).eraseReps
  | [] => rfl
  | [a] => rfl
  | a :: b :: as => by
      have ih := eraseReps_map f (b :: as)
      by_cases hab : a = b
      · subst hab
        rw [eraseReps_self_cons, ih]
        simp [eraseReps_self_cons]
      · obtain ⟨rest, hrest⟩ := exists_eraseReps_cons as b
        rw [eraseReps_cons_of_ne hab, hrest]
        rw [hrest] at ih
        simp only [List.map_cons] at ih ⊢
        -- equal images of different elements are left out on both sides
        by_cases hf : f a = f b
        · rw [hf, eraseReps_self_cons, eraseReps_self_cons, ih]
        · rw [eraseReps_cons_of_ne hf, eraseReps_cons_of_ne hf, ih]

/-! ## Sorted lists -/

/-- In a sorted list equal elements are next to each other, and one of them is left. -/
theorem pairwise_eraseReps {le : α → α → Prop} : ∀ {as : List α},
    (∀ a ∈ as, ∀ b ∈ as, le a b → le b a → a = b) → as.Pairwise le →
      as.eraseReps.Pairwise fun a b => le a b ∧ a ≠ b
  | [], _, _ => .nil
  | [a], _, _ => List.pairwise_singleton _ _
  | a :: b :: as, hantisymm, hsorted => by
      have htail : ∀ c ∈ b :: as, ∀ d ∈ b :: as, le c d → le d c → c = d := fun c hc d hd =>
        hantisymm c (List.mem_cons_of_mem a hc) d (List.mem_cons_of_mem a hd)
      obtain ⟨hfirst, hrest⟩ := List.pairwise_cons.mp hsorted
      have ih := pairwise_eraseReps htail hrest
      by_cases hab : a = b
      · subst hab
        rw [eraseReps_self_cons]
        exact ih
      · rw [eraseReps_cons_of_ne hab]
        refine List.pairwise_cons.mpr ⟨?_, ih⟩
        intro c hc
        rw [mem_eraseReps] at hc
        refine ⟨hfirst c hc, ?_⟩
        rintro rfl
        -- `b` would stand between two equal elements
        have hle : le a b := hfirst b List.mem_cons_self
        have hge : le b a := by
          rcases List.mem_cons.mp hc with heq | hmem
          · exact absurd heq hab
          · exact (List.pairwise_cons.mp hrest).1 a hmem
        exact hab (hantisymm a List.mem_cons_self b (by simp) hle hge)

/-- **Sorted lists with the same elements differ in repetitions only.** -/
theorem eraseReps_eq_of_pairwise {le : α → α → Prop} {as bs : List α}
    (hantisymm : ∀ a ∈ as, ∀ b ∈ as, le a b → le b a → a = b) (has : as.Pairwise le)
    (hbs : bs.Pairwise le) (hmem : ∀ a, a ∈ as ↔ a ∈ bs) : as.eraseReps = bs.eraseReps := by
  have hantisymm' : ∀ a ∈ bs, ∀ b ∈ bs, le a b → le b a → a = b := fun a ha b hb =>
    hantisymm a ((hmem a).mpr ha) b ((hmem b).mpr hb)
  have has' := pairwise_eraseReps hantisymm has
  have hbs' := pairwise_eraseReps hantisymm' hbs
  have hperm : as.eraseReps.Perm bs.eraseReps := by
    refine (List.perm_ext_iff_of_nodup (has'.imp And.right) (hbs'.imp And.right)).mpr ?_
    intro a
    rw [mem_eraseReps, mem_eraseReps, hmem]
  refine List.Perm.eq_of_pairwise ?_ has' hbs' hperm
  intro a b ha hb hab hba
  rw [mem_eraseReps] at ha hb
  exact hantisymm a ha b ((hmem b).mpr hb) hab.1 hba.1

end

end SourceMap

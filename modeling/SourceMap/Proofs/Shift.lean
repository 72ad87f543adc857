import Mathlib
import SourceMap.Proofs.Merge
import SourceMap.Record

/-!
# Order of positions

Positions and offsets are compared by their numbers (`Position.isLE_iff`, `Offset.isLE_iff`). A
position of a section that has one in the file is found again from there (`ShiftedTo.toLocal_eq`),
and it is never before the offset of the section (`ShiftedTo.isLE`).
-/

set_option autoImplicit false

namespace SourceMap

/-! ## Pairs of coordinates -/

/-- Of two pairs of words one comes first by its first word, or by its second if the first are
equal. -/
theorem lt_compareLex_iff {α : Type} {f g : α → UInt32} {a b : α} :
    compareLex (compareOn f) (compareOn g) a b = .lt ↔
      (f a).toNat < (f b).toNat ∨ (f a).toNat = (f b).toNat ∧ (g a).toNat < (g b).toNat := by
  show (compare (f a) (f b)).then (compare (g a) (g b)) = .lt ↔ _
  rw [Ordering.then_eq_lt, Std.compare_eq_lt, Std.compare_eq_lt, Std.compare_eq_iff_eq,
    UInt32.lt_iff_toNat_lt, UInt32.lt_iff_toNat_lt, UInt32.toNat_inj]

theorem isLE_compareLex_iff {α : Type} {f g : α → UInt32} {a b : α} :
    (compareLex (compareOn f) (compareOn g) a b).isLE ↔
      (f a).toNat < (f b).toNat ∨ (f a).toNat = (f b).toNat ∧ (g a).toNat ≤ (g b).toNat := by
  have hnot : (compareLex (compareOn f) (compareOn g) a b).isLE ↔
      ¬ compareLex (compareOn f) (compareOn g) b a = .lt := by
    have hswap : compareLex (compareOn f) (compareOn g) b a =
        (compareLex (compareOn f) (compareOn g) a b).swap := Std.OrientedCmp.eq_swap
    rw [hswap]
    cases compareLex (compareOn f) (compareOn g) a b <;> decide
  rw [hnot, lt_compareLex_iff]
  omega

theorem Offset.isLE_iff {p q : Offset} : (compare p q).isLE ↔ p.line.toNat < q.line.toNat ∨
    p.line.toNat = q.line.toNat ∧ p.column.toNat ≤ q.column.toNat :=
  isLE_compareLex_iff

namespace Position

/-- A position is before another one on an earlier line, or in an earlier column of its line. -/
theorem lt_iff {p q : Position} : compare p q = .lt ↔ p.line.toNat < q.line.toNat ∨
    p.line.toNat = q.line.toNat ∧ p.column.toNat < q.column.toNat :=
  lt_compareLex_iff

theorem isLE_iff {p q : Position} : (compare p q).isLE ↔ p.line.toNat < q.line.toNat ∨
    p.line.toNat = q.line.toNat ∧ p.column.toNat ≤ q.column.toNat :=
  isLE_compareLex_iff

/-! ## Positions of sections -/

variable {offset p p' g g' : Position}

/-- A position of the file is that of one position of the section. -/
theorem ShiftedTo.toLocal_eq (h : ShiftedTo offset p g) (hoffset : offset.line ≠ 0)
    (hp : p.line ≠ 0) : offset.toLocal g = p := by
  have hpos : offset.line.toNat ≠ 0 := fun h => hoffset (UInt32.toNat_inj.mp h)
  have hppos : p.line.toNat ≠ 0 := fun h => hp (UInt32.toNat_inj.mp h)
  obtain ⟨hline, hcolumn⟩ := h
  have hplt := p.line.toNat_lt
  have hle : offset.line ≤ g.line := by
    rw [UInt32.le_iff_toNat_le]
    omega
  have hlocal : g.line - offset.line + 1 = p.line := by
    apply UInt32.toNat_inj.mp
    have hsub := UInt32.toNat_sub_of_le _ _ hle
    have hone : (1 : UInt32).toNat = 1 := rfl
    rw [UInt32.toNat_add, hsub, hone, Nat.mod_eq_of_lt (by omega)]
    omega
  have hfirst : g.line = offset.line ↔ p.line = 1 := by
    have hone : (1 : UInt32).toNat = 1 := rfl
    rw [← UInt32.toNat_inj, ← UInt32.toNat_inj, hone]
    omega
  have hshift : (if g.line = offset.line then Coordinate.monus g.column offset.column
      else g.column) = p.column := by
    apply UInt32.toNat_inj.mp
    by_cases hone : p.line = 1
    · rw [if_pos (hfirst.mpr hone), Coordinate.toNat_monus]
      rw [if_pos hone] at hcolumn
      omega
    · rw [if_neg fun h => hone (hfirst.mp h)]
      rw [if_neg hone] at hcolumn
      omega
  show Position.mk (g.line - offset.line + 1) _ = p
  rw [hlocal, hshift]

/-- A section starts at its offset. -/
theorem ShiftedTo.isLE (h : ShiftedTo offset p g) (hp : p.line ≠ 0) :
    (compare offset g).isLE := by
  have hppos : p.line.toNat ≠ 0 := fun h => hp (UInt32.toNat_inj.mp h)
  obtain ⟨hline, hcolumn⟩ := h
  rw [isLE_iff]
  by_cases hone : p.line = 1
  · have hone' : p.line.toNat = 1 := by rw [hone]; rfl
    rw [if_pos hone] at hcolumn
    omega
  · have hone' : p.line.toNat ≠ 1 := fun h => hone (UInt32.toNat_inj.mp h)
    omega

/-- A position of a section has no more than one position in the file. -/
theorem ShiftedTo.unique (h : ShiftedTo offset p g) (h' : ShiftedTo offset p g') : g = g' := by
  obtain ⟨line, column⟩ := g
  obtain ⟨line', column'⟩ := g'
  have hline : line = line' := by
    apply UInt32.toNat_inj.mp
    have h₁ := h.1
    have h₂ := h'.1
    dsimp only at h₁ h₂
    omega
  have hcolumn : column = column' := UInt32.toNat_inj.mp (h.2.trans h'.2.symm)
  rw [hline, hcolumn]

end Position

end SourceMap

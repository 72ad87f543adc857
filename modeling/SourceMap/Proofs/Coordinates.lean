import Mathlib
import SourceMap.Proofs.Delegation

/-!
# Coordinates of a section and of the file

A section translates positions in both directions. The translations undo each other and keep the
order, and a position of the section has none in the file just if a number of it would be no word
(`Position.translates_of_line_ne_zero`). All of it follows from the exact relation between the two
(`Position.ShiftedTo`): it holds of a position of the file, from the offset on, and its local
position (`Position.shiftedTo_toLocal`), and it carries the order over
(`Position.ShiftedTo.compare_eq`).

A machine translates in words of 32 bits. Where a section starts on a line from 1 on, and a position
of the file is not before the section, no difference is below zero and no sum is too large
(`Position.toLocalInWords_eq`, `Position.toGlobalInWords_eq`).
-/

set_option autoImplicit false

namespace SourceMap

namespace Coordinate

/-- There is no word for a number that is too large. -/
theorem ofInt?_eq_none_iff {n : Nat} : ofInt? n = none ↔ UInt32.size - 1 < n := by
  have hsize := size_eq
  unfold ofInt?
  split
  · simp only [reduceCtorEq, false_iff]
    omega
  · simp only [true_iff]
    omega

theorem add?_eq_none_iff {a b : UInt32} : add? a b = none ↔ UInt32.size - 1 < a.toNat + b.toNat :=
  ofInt?_eq_none_iff

/-- The difference of two words, unless it is below zero. -/
def sub? (a b : UInt32) : Option UInt32 :=
  if b ≤ a then some (a - b) else none

theorem sub?_eq_some_iff {a b w : UInt32} : sub? a b = some w ↔ w.toNat + b.toNat = a.toNat := by
  have hw := w.toNat_lt
  unfold sub?
  split
  · rename_i hle
    have hsub := UInt32.toNat_sub_of_le _ _ hle
    have hle' : b.toNat ≤ a.toNat := UInt32.le_iff_toNat_le.mp hle
    rw [Option.some.injEq, ← UInt32.toNat_inj, hsub]
    omega
  · rename_i hlt
    rw [UInt32.le_iff_toNat_le] at hlt
    simp only [reduceCtorEq, false_iff]
    omega

end Coordinate

namespace Position

variable {offset p q g h : Position}

/-! ## There and back -/

/-- **From its offset on, a section has a position for every one of the file.** -/
theorem shiftedTo_toLocal (h : HasLocal offset g) : ShiftedTo offset (offset.toLocal g) g := by
  have hline := h.toNat_line
  have hcolumn := toNat_column_toLocal offset g
  have hle := h.line
  have hfirst : (offset.toLocal g).line = 1 ↔ g.line = offset.line := by
    have hone : (1 : UInt32).toNat = 1 := rfl
    rw [← UInt32.toNat_inj, ← UInt32.toNat_inj, hline, hone]
    omega
  refine ⟨by omega, ?_⟩
  by_cases hsame : g.line = offset.line
  · have hle' := h.column hsame
    rw [if_pos hsame] at hcolumn
    rw [if_pos (hfirst.mpr hsame)]
    omega
  · rw [if_neg hsame] at hcolumn
    rw [if_neg fun hone => hsame (hfirst.mp hone)]
    omega

/-- Lines of a section count from 1. -/
theorem HasLocal.line_ne_zero (h : HasLocal offset g) : (offset.toLocal g).line ≠ 0 := by
  intro hzero
  have hline := h.toNat_line
  rw [hzero, UInt32.toNat_zero] at hline
  omega

/-! ## Order -/

theorem ShiftedTo.lt_iff (hp : ShiftedTo offset p g) (hq : ShiftedTo offset q h) :
    compare g h = .lt ↔ compare p q = .lt := by
  obtain ⟨hpline, hpcolumn⟩ := hp
  obtain ⟨hqline, hqcolumn⟩ := hq
  rw [Position.lt_iff, Position.lt_iff]
  by_cases hline : p.line = q.line
  · -- on one line all columns are shifted alike
    rw [hline] at hpline hpcolumn ⊢
    omega
  · have hne : p.line.toNat ≠ q.line.toNat := fun heq => hline (UInt32.toNat_inj.mp heq)
    omega

/-- **The positions of a section are ordered as they are in the file.** -/
theorem ShiftedTo.compare_eq (hp : ShiftedTo offset p g) (hq : ShiftedTo offset q h) :
    compare g h = compare p q := by
  cases hcompare : compare p q with
  | lt => exact (hp.lt_iff hq).mpr hcompare
  | eq =>
      cases Std.LawfulEqCmp.eq_of_compare hcompare
      rw [hp.unique hq]
      exact Std.ReflOrd.compare_self
  | gt =>
      have hlt := (hq.lt_iff hp).mpr (Std.OrientedCmp.lt_of_gt hcompare)
      exact Std.OrientedCmp.gt_of_lt hlt

/-! ## Positions out of range -/

theorem shiftColumn?_eq_none_iff {line column : UInt32} : offset.shiftColumn? line column = none ↔
    UInt32.size - 1 < column.toNat + if line = 1 then offset.column.toNat else 0 := by
  have hcolumn := column.toNat_lt_size
  unfold shiftColumn?
  split
  · exact Coordinate.add?_eq_none_iff
  · simp only [reduceCtorEq, false_iff]
    omega

/-- **A position of a section has none in the file just if a number of it is too large.** -/
theorem toGlobal?_eq_none_iff (hoffset : offset.line ≠ 0) : offset.toGlobal? p = none ↔
    UInt32.size - 1 < offset.line.toNat - 1 + p.line.toNat ∨
      UInt32.size - 1 < p.column.toNat + if p.line = 1 then offset.column.toNat else 0 := by
  have hpos : offset.line.toNat ≠ 0 := fun hzero => hoffset (UInt32.toNat_inj.mp hzero)
  have hline : ((offset.line.toNat : Int) - 1 + p.line.toNat) =
      (offset.line.toNat - 1 + p.line.toNat : Nat) := by
    omega
  rw [toGlobal?, hline, ← Coordinate.ofInt?_eq_none_iff, ← shiftColumn?_eq_none_iff]
  cases Coordinate.ofInt? (offset.line.toNat - 1 + p.line.toNat : Nat) with
  | none => simp
  | some line => cases offset.shiftColumn? p.line p.column <;> simp

/-! ## In words -/

/-- A position of the file in the coordinates of a section, by the arithmetic of words. There is no
outcome where it overflows. -/
def toLocalInWords (offset p : Position) : Option Position :=
  match (Coordinate.sub? p.line offset.line).bind (Coordinate.add? · 1) with
  | none => none
  | some line =>
    some { line, column :=
      if p.line = offset.line then Coordinate.monus p.column offset.column else p.column }

/-- A position of a section in the coordinates of the file, by the arithmetic of words, if it has
one. There is no outcome where the lines before the section are below zero. -/
def toGlobalInWords (offset p : Position) : Option (Option Position) :=
  (Coordinate.sub? offset.line 1).map fun before =>
    match Coordinate.add? before p.line, offset.shiftColumn? p.line p.column with
    | some line, some column => some { line, column }
    | _, _ => none

theorem toLocalInWords_eq (h : HasLocal offset g) :
    toLocalInWords offset g = some (offset.toLocal g) := by
  have hle := h.line
  have hone : (1 : UInt32).toNat = 1 := rfl
  have hdifference : Coordinate.sub? g.line offset.line = some (g.line - offset.line) :=
    if_pos (UInt32.le_iff_toNat_le.mpr h.line)
  have hsub := Coordinate.sub?_eq_some_iff.mp hdifference
  have hline : Coordinate.add? (g.line - offset.line) 1 = some (offset.toLocal g).line := by
    rw [Coordinate.add?_eq_some_iff, h.toNat_line, hone]
    omega
  rw [toLocalInWords, hdifference, Option.bind_some, hline]
  rfl

theorem toGlobalInWords_eq (hoffset : offset.line ≠ 0) (p : Position) :
    toGlobalInWords offset p = some (offset.toGlobal? p) := by
  have hpos : offset.line.toNat ≠ 0 := fun hzero => hoffset (UInt32.toNat_inj.mp hzero)
  have hone : (1 : UInt32).toNat = 1 := rfl
  have hle : (1 : UInt32) ≤ offset.line := by
    rw [UInt32.le_iff_toNat_le]
    omega
  have hbefore : Coordinate.sub? offset.line 1 = some (offset.line - 1) := if_pos hle
  have hsub := Coordinate.sub?_eq_some_iff.mp hbefore
  have hline : ((offset.line - 1).toNat + p.line.toNat : Int) =
      offset.line.toNat - 1 + p.line.toNat := by
    omega
  rw [toGlobalInWords, hbefore, Option.map_some, Coordinate.add?, hline, toGlobal?]
  cases Coordinate.ofInt? (offset.line.toNat - 1 + p.line.toNat) with
  | none => rfl
  | some line => cases offset.shiftColumn? p.line p.column <;> rfl

/-! ## Both directions -/

/-- How a section translates between positions of its own and positions of the file. -/
structure Translates (offset : Position) : Prop where
  back : ∀ p g, p.line ≠ 0 → offset.toGlobal? p = some g →
    (compare offset g).isLE ∧ offset.toLocal g = p
  there : ∀ g, (compare offset g).isLE →
    (offset.toLocal g).line ≠ 0 ∧ offset.toGlobal? (offset.toLocal g) = some g
  order : ∀ p q g h, offset.toGlobal? p = some g → offset.toGlobal? q = some h →
    compare g h = compare p q
  none_iff : ∀ p, offset.toGlobal? p = none ↔
    UInt32.size - 1 < offset.line.toNat - 1 + p.line.toNat ∨
      UInt32.size - 1 < p.column.toNat + if p.line = 1 then offset.column.toNat else 0
  localInWords : ∀ g, (compare offset g).isLE →
    toLocalInWords offset g = some (offset.toLocal g)
  globalInWords : ∀ p, toGlobalInWords offset p = some (offset.toGlobal? p)

/-- **A section translates positions in both directions, in order.** Where a position of the section
has one in the file, this is not before the section and leads back to it; every position of the file
from the section on comes from the position that it leads to. Two positions of the file are ordered
as those of the section, and there is none just if a number of it would be above the largest word.
The arithmetic of words overflows nowhere. -/
theorem translates_of_line_ne_zero (hoffset : offset.line ≠ 0) : Translates offset where
  back p g hp hg := by
    have hshift := toGlobal?_eq_some_iff.mp hg
    exact ⟨hshift.isLE hp, hshift.toLocal_eq hoffset hp⟩
  there g hle := by
    have hlocal := hasLocal_of_isLE hoffset hle
    exact ⟨hlocal.line_ne_zero, toGlobal?_eq_some_iff.mpr (shiftedTo_toLocal hlocal)⟩
  order p q g h hg hh := (toGlobal?_eq_some_iff.mp hg).compare_eq (toGlobal?_eq_some_iff.mp hh)
  none_iff p := toGlobal?_eq_none_iff hoffset
  localInWords g hle := toLocalInWords_eq (hasLocal_of_isLE hoffset hle)
  globalInWords := toGlobalInWords_eq hoffset

/-- A section that starts near the largest line and column. -/
theorem translates_of_line_ne_zero_largest :
    let offset : Position := ⟨4294967294, 4294967290⟩
    offset.line ≠ 0 ∧
      offset.toGlobal? ⟨1, 5⟩ = some ⟨4294967294, Coordinate.largest⟩ ∧
      offset.toLocal ⟨4294967294, Coordinate.largest⟩ = ⟨1, 5⟩ ∧
      offset.toGlobal? (offset.toLocal ⟨Coordinate.largest, 3⟩) = some ⟨Coordinate.largest, 3⟩ ∧
      compare (⟨4294967294, Coordinate.largest⟩ : Position) ⟨Coordinate.largest, 3⟩ =
        compare (⟨1, 5⟩ : Position) ⟨2, 3⟩ ∧
      offset.toGlobal? ⟨1, 6⟩ = none ∧ offset.toGlobal? ⟨3, 0⟩ = none := by
  intro offset
  have hoffset : offset.line ≠ 0 := by decide
  have htranslates := translates_of_line_ne_zero hoffset
  have hfirst : offset.toGlobal? ⟨1, 5⟩ = some ⟨4294967294, Coordinate.largest⟩ := by decide
  have hsecond : offset.toGlobal? ⟨2, 3⟩ = some ⟨Coordinate.largest, 3⟩ := by decide
  exact ⟨hoffset, hfirst, (htranslates.back _ _ (by decide) hfirst).2,
    (htranslates.there _ (by decide)).2, htranslates.order _ _ _ _ hfirst hsecond,
    (htranslates.none_iff _).mpr (by decide), (htranslates.none_iff _).mpr (by decide)⟩

end Position

end SourceMap

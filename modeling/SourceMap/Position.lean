/-!
# Lines and columns

Every coordinate is a 32-bit word. Lines count from 1 and columns from 0. Arithmetic on coordinates
is done in the integers, and `Coordinate.ofInt?` brings a result back only when it fits, so nothing
wraps around.
-/

set_option autoImplicit false

namespace SourceMap

/-! ## Coordinates -/

namespace Coordinate

/-- The number of words. -/
theorem size_eq : UInt32.size = 4294967296 := rfl

/-- The word that spells `n`, if there is one. -/
def ofInt? (n : Int) : Option UInt32 :=
  if 0 ≤ n ∧ n.toNat < UInt32.size then some (UInt32.ofNat n.toNat) else none

/-- A word is found for its own value only. -/
theorem ofInt?_eq_some_iff {n : Int} {w : UInt32} : ofInt? n = some w ↔ n = w.toNat := by
  have hw := w.toNat_lt
  have hsize := size_eq
  unfold ofInt?
  split
  · rename_i h
    rw [Option.some.injEq]
    constructor
    · rintro rfl
      rw [UInt32.toNat_ofNat']
      omega
    · rintro rfl
      simp
  · simp only [reduceCtorEq, false_iff]
    omega

/-- The sum of two words, if it is a word. -/
def add? (a b : UInt32) : Option UInt32 :=
  ofInt? (a.toNat + b.toNat)

/-- The difference of two words, zero where it would be negative. -/
def monus (a b : UInt32) : UInt32 :=
  if b ≤ a then a - b else 0

/-- A difference of words is that of their values, which stops at zero. -/
theorem toNat_monus (a b : UInt32) : (monus a b).toNat = a.toNat - b.toNat := by
  unfold monus
  split
  · rename_i h
    exact UInt32.toNat_sub_of_le _ _ h
  · rename_i h
    rw [UInt32.le_iff_toNat_le] at h
    simp only [UInt32.reduceToNat]
    omega

/-- The largest word. -/
def largest : UInt32 := 4294967295

/-- The last column of a span that runs to the end of its line. -/
def unbounded : UInt32 := largest

end Coordinate

/-! ## Positions -/

/-- A line and a column of one file. -/
structure Position where
  /-- Counted from 1. -/
  line : UInt32
  /-- Counted from 0. -/
  column : UInt32
deriving DecidableEq, Inhabited

namespace Position

/-- Reading order: by line, then by column. -/
instance : Ord Position := ⟨compareLex (compareOn Position.line) (compareOn Position.column)⟩

instance : Std.TransOrd Position :=
  inferInstanceAs (Std.TransCmp (compareLex (compareOn Position.line) (compareOn Position.column)))

instance : Std.LawfulEqOrd Position where
  eq_of_compare {a b} h := by
    have h' : compareLex (compareOn Position.line) (compareOn Position.column) a b = .eq := h
    simp only [compareLex, compareOn, Ordering.then_eq_eq, Std.compare_eq_iff_eq] at h'
    cases a
    cases b
    simp_all

/-- The positions of a list in reading order. -/
def sort (ps : List Position) : List Position :=
  ps.mergeSort fun a b => (compare a b).isLE

/-- The text `line:column`. -/
def text (p : Position) : String :=
  s!"{p.line}:{p.column}"

end Position

end SourceMap

import SourceMap.Position

/-!
# Mappings

A mapping ties a position of the generated file to a place in an original source, if there is one,
and to the name the code had there. Mappings are ordered by generated position, then by source,
original position and name, an absent part before a present one and texts by code point.
-/

set_option autoImplicit false

namespace SourceMap

/-- A position in a named source. -/
structure OriginalLocation where
  source : String
  position : Position
deriving DecidableEq, Inhabited

namespace OriginalLocation

instance : Ord OriginalLocation :=
  ⟨compareLex (compareOn OriginalLocation.source) (compareOn OriginalLocation.position)⟩

instance : Std.TransOrd OriginalLocation :=
  inferInstanceAs (Std.TransCmp
    (compareLex (compareOn OriginalLocation.source) (compareOn OriginalLocation.position)))

instance : Std.LawfulEqOrd OriginalLocation where
  eq_of_compare {a b} h := by
    have h' : compareLex (compareOn OriginalLocation.source)
      (compareOn OriginalLocation.position) a b = .eq := h
    simp only [compareLex, compareOn, Ordering.then_eq_eq, Std.compare_eq_iff_eq] at h'
    cases a
    cases b
    simp_all

/-- The text `source:line:column`. -/
def text (o : OriginalLocation) : String :=
  s!"{o.source}:{o.position.text}"

end OriginalLocation

/-- One mapping, with its source and its name spelled out. -/
structure Mapping where
  generated : Position
  original : Option OriginalLocation := none
  name : Option String := none
deriving DecidableEq, Inhabited

namespace Mapping

/-- The parts of a mapping in the order in which they are compared. -/
def order : Mapping → Mapping → Ordering :=
  compareLex (compareOn Mapping.generated)
    (compareLex (compareOn Mapping.original) (compareOn Mapping.name))

instance : Ord Mapping := ⟨order⟩

instance : Std.TransOrd Mapping :=
  inferInstanceAs (Std.TransCmp (compareLex (compareOn Mapping.generated)
    (compareLex (compareOn Mapping.original) (compareOn Mapping.name))))

instance : Std.LawfulEqOrd Mapping where
  eq_of_compare {a b} h := by
    have h' : order a b = .eq := h
    simp only [order, compareLex, compareOn, Ordering.then_eq_eq, Std.compare_eq_iff_eq] at h'
    cases a
    cases b
    simp_all

/-- The source a mapping points into. -/
def source? (m : Mapping) : Option String :=
  m.original.map OriginalLocation.source

/-- The text `line:column -> source:line:column (name)`, as far as the parts are there. A name
without a source is left out. -/
def text (m : Mapping) : String :=
  match m.original, m.name with
  | none, _ => m.generated.text
  | some o, none => s!"{m.generated.text} -> {o.text}"
  | some o, some name => s!"{m.generated.text} -> {o.text} ({name})"

/-- The mappings of a list in their order. -/
def sort (ms : List Mapping) : List Mapping :=
  ms.mergeSort fun a b => (compare a b).isLE

/-! ## Faults -/

/-- Why a mapping cannot be part of a map. -/
inductive Fault where
  | generatedLineZero
  | originalLineZero
  | nameWithoutSource
deriving DecidableEq

/-- The first fault of a mapping: lines count from 1, and a name needs a source. -/
def fault? (m : Mapping) : Option Fault :=
  if m.generated.line = 0 then some .generatedLineZero
  else match m.original with
    | some o => if o.position.line = 0 then some .originalLineZero else none
    | none => if m.name.isSome then some .nameWithoutSource else none

end Mapping

end SourceMap

import SourceMap.Position

/-!
# Source map records

A record is a source map as it stands in a file, before anything in it has been checked. A record
with sections is an index map: each section has an offset in the generated file and should have
a record of its own. Lines and columns of offsets count from 0.
-/

set_option autoImplicit false

namespace SourceMap

/-- Where a section starts. Both numbers count from 0. -/
structure Offset where
  line : UInt32
  column : UInt32
deriving DecidableEq, Inhabited

namespace Offset

/-- By line, then by column. -/
instance : Ord Offset := ⟨compareLex (compareOn Offset.line) (compareOn Offset.column)⟩

instance : Std.TransOrd Offset :=
  inferInstanceAs (Std.TransCmp (compareLex (compareOn Offset.line) (compareOn Offset.column)))

/-- The start of a file. -/
def zero : Offset := ⟨0, 0⟩

end Offset

/-- A section, whose map is of type `μ` if it has one. -/
structure Section (μ : Type) where
  offset : Offset
  map : Option μ := none
  url : Option String := none

/-- A source map as it stands in a file. -/
structure Record where
  version : Option UInt32 := none
  file : Option String := none
  sourceRoot : Option String := none
  /-- A source may be null. -/
  sources : Option (List (Option String)) := none
  sourcesContent : Option (List (Option String)) := none
  names : Option (List String) := none
  mappings : Option String := none
  sections : Option (List (Section Record)) := none

namespace Record

/-- The record without fields. -/
def empty : Record := {}

instance : Inhabited Record := ⟨empty⟩

/-- Whether a record has sections. -/
def isIndexMap (r : Record) : Bool :=
  r.sections.isSome

end Record

end SourceMap

import SourceMap.Position

/-!
# Answers

A query that finds nothing is answered by a record without parts.
-/

set_option autoImplicit false

namespace SourceMap

/-- The order in which the mappings of a map are listed. -/
inductive Order where
  /-- Every mapping, by generated position. -/
  | generated
  /-- The mappings with a source, by original position. -/
  | original
deriving DecidableEq, Inhabited

/-- Where the code at a generated position comes from. -/
structure OriginalPosition where
  source : Option String := none
  line : Option UInt32 := none
  column : Option UInt32 := none
  name : Option String := none
deriving DecidableEq, Inhabited

/-- Whether nothing was found. -/
def OriginalPosition.isEmpty (p : OriginalPosition) : Bool :=
  p.source.isNone

/-- Where the code at an original position has gone. The last column is known once the spans have
been computed. -/
structure GeneratedPosition where
  line : Option UInt32 := none
  column : Option UInt32 := none
  lastColumn : Option UInt32 := none
deriving DecidableEq, Inhabited

/-- Whether nothing was found. -/
def GeneratedPosition.isEmpty (p : GeneratedPosition) : Bool :=
  p.line.isNone

end SourceMap

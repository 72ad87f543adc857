import SourceMap.Position

/-!
# Coordinates of sections

A section of a generated file starts at an offset and counts its lines and columns from there.
Columns are shifted on the first line of the section only.
-/

set_option autoImplicit false

namespace SourceMap.Position

/-- A position at or after an offset, in the coordinates of the section. -/
def toLocal (offset p : Position) : Position where
  line := p.line - offset.line + 1
  column := if p.line = offset.line then Coordinate.monus p.column offset.column else p.column

/-- A column of the section, given its line there, in the coordinates of the file. -/
def shiftColumn? (offset : Position) (localLine column : UInt32) : Option UInt32 :=
  if localLine = 1 then Coordinate.add? column offset.column else some column

/-- A position of the section in the coordinates of the file, if these are coordinates. -/
def toGlobal? (offset p : Position) : Option Position := do
  let line ← Coordinate.ofInt? (offset.line.toNat - 1 + p.line.toNat)
  let column ← offset.shiftColumn? p.line p.column
  some { line, column }

end SourceMap.Position

import SourceMap.Mappings.Entry
import SourceMap.Mappings.Segment

/-!
# Running values

Every number of a segment is the difference from the value that the last segment with that number
led to. The generated column starts over on each line, and the other values go on through the whole
text. Values count from 0, the original line included.

`Running.resolve` goes from the differences of a segment to an entry and `Running.delta` from an
entry to the differences of its segment; `Running.after` gives the values that an entry leaves
behind.
-/

set_option autoImplicit false

namespace SourceMap

/-- The values that the next segment is relative to. -/
structure Running where
  /-- The generated line, counted from 1. -/
  line : Nat := 1
  column : Int := 0
  source : Int := 0
  originalLine : Int := 0
  originalColumn : Int := 0
  name : Int := 0
deriving DecidableEq

/-- How many slots the string tables have. -/
structure TableSizes where
  sources : Nat
  names : Nat

namespace Running

/-- The values at a segment of a line. -/
def enter (r : Running) (line : Nat) : Running :=
  if line = r.line then r else { r with line, column := 0 }

/-- The values that an entry leaves behind. -/
def after (r : Running) (e : Entry) : Running :=
  let r := { r with line := e.generated.line.toNat, column := e.generated.column.toNat }
  match e.origin with
  | none => r
  | some o =>
    { r with
      source := o.place.source
      originalLine := o.place.position.line.toNat - 1
      originalColumn := o.place.position.column.toNat
      name := match o.name with
        | none => r.name
        | some n => n }

/-! ## Reading -/

/-- The coordinate of a value. -/
def coordinate (text : List Char) (value : Int) : Except Error UInt32 :=
  match Coordinate.ofInt? value with
  | none => .error (.outOfRange (.segment (String.ofList text)))
  | some w => .ok w

/-- The slot of a value, which must be one of a table of the given size. -/
def readSlot (text : List Char) (value : Int) (size : Nat) (unknown : Nat → Error) :
    Except Error Nat := do
  let slot ← coordinate text value
  if slot.toNat < size then return slot.toNat else throw (unknown slot.toNat)

/-- The slot of the name, if the segment has one. -/
def readName (r : Running) (sizes : TableSizes) (text : List Char) :
    Option Int → Except Error (Option Nat)
  | none => .ok none
  | some d => (readSlot text (r.name + d) sizes.names .unknownName).map some

/-- The origin of an entry. Original lines count from 1 in an entry and from 0 in a text. -/
def readOrigin (r : Running) (sizes : TableSizes) (text : List Char) (d : PlaceDelta) :
    Except Error Origin := do
  let source ← readSlot text (r.source + d.source) sizes.sources .unknownSource
  let line ← coordinate text (r.originalLine + d.line)
  let column ← coordinate text (r.originalColumn + d.column)
  let line ← coordinate text (line.toNat + 1)
  let name ← r.readName sizes text d.name
  return { place := { source, position := { line, column } }, name }

/-- The entry of a segment that spells some differences. -/
def resolve (r : Running) (sizes : TableSizes) (s : Segment) (d : Delta) : Except Error Entry := do
  let r := r.enter s.line
  let line ← coordinate s.text s.line
  let column ← coordinate s.text (r.column + d.column)
  let generated := { line, column }
  match d.place with
  | none => return { generated }
  | some p => return { generated, origin := some (← r.readOrigin sizes s.text p) }

/-- The entries of the segments of a text, after those in `found`, the last one first. -/
def readAll (sizes : TableSizes) (memo : Memo) (r : Running) (found : List Entry) :
    List Segment → Except Error (List Entry)
  | [] => .ok found.reverse
  | s :: ss =>
    match memo.parse s.text with
    | .error e => .error e
    | .ok (d, memo) =>
      match r.resolve sizes s d with
      | .error e => .error e
      | .ok e => readAll sizes memo (r.after e) (e :: found) ss

/-! ## Writing -/

/-- The differences of an entry from the values before it, on the same line. -/
def delta (r : Running) (e : Entry) : Delta where
  column := e.generated.column.toNat - r.column
  place := e.origin.map fun o =>
    { source := o.place.source - r.source
      line := o.place.position.line.toNat - 1 - r.originalLine
      column := o.place.position.column.toNat - r.originalColumn
      name := o.name.map fun n : Nat => n - r.name }

/-- What stands before the segment of an entry: as many semicolons as lines have passed, or else
a comma, unless the segment is the first. -/
def separator (r : Running) (first : Bool) (e : Entry) : List Char :=
  let line := e.generated.line.toNat
  if line = r.line then (if first then [] else [','])
  else List.replicate (line - r.line) ';'

end Running

end SourceMap

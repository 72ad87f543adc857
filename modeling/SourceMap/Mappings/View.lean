import SourceMap.Answer
import SourceMap.Mapping
import SourceMap.Mappings.Table
import SourceMap.SourceRoot
import SourceMap.StringTable

/-!
# Views

A view is a mapping table together with the string tables that its slots belong to and the root of
its sources. Queries are answered here in the names of the outside.
-/

set_option autoImplicit false

namespace SourceMap

/-- A mapping table and what its slots stand for. -/
structure View where
  table : MappingTable
  sources : StringTable
  names : StringTable
  root : Option String := none

namespace View

/-! ## Names -/

/-- The full name of the source in a slot. -/
def sourceAt (v : View) (slot : Nat) : String :=
  SourceRoot.resolve v.root ((v.sources.get? slot).getD "")

/-- The slot of a source by its full name. -/
def sourceSlot? (v : View) (source : String) : Option Nat :=
  v.sources.indexOf? (SourceRoot.relativize v.root source)

/-- An entry with its slots spelled out. -/
def mapping (v : View) (e : Entry) : Mapping where
  generated := e.generated
  original := e.place?.map fun p => { source := v.sourceAt p.source, position := p.position }
  name := e.name?.bind v.names.get?

/-- The mappings of a view. -/
def mappings (v : View) : Order → List Mapping
  | .generated => v.table.generated.toList.map v.mapping
  | .original => v.table.original.toList.map v.mapping

/-- The view with the last column of every entry. -/
def withSpans (v : View) : View :=
  { v with table := v.table.withSpans }

/-! ## Queries -/

/-- The generated position of an entry. -/
def positionOf (e : Entry) : GeneratedPosition where
  line := some e.generated.line
  column := some e.generated.column
  lastColumn := e.lastColumn

/-- Where the code at a generated position comes from. Only an entry on the same line counts. -/
def originalPositionFor (v : View) (p : Position) (bias : Bias) : OriginalPosition :=
  match v.table.findGenerated? p bias with
  | none => {}
  | some e =>
    if e.generated.line = p.line then
      match e.place? with
      | none => {}
      | some place =>
        { source := some (v.sourceAt place.source)
          line := some place.position.line
          column := some place.position.column
          name := e.name?.bind v.names.get? }
    else {}

/-- Where the code at an original position has gone. Only an entry of the same source counts. -/
def generatedPositionFor (v : View) (source : String) (p : Position) (bias : Bias) :
    GeneratedPosition :=
  match v.sourceSlot? source with
  | none => {}
  | some slot =>
    match (v.table.findOriginal? { source := slot, position := p } bias).bind
        (v.table.original[·]?) with
    | none => {}
    | some e => if e.place?.map Place.source = some slot then positionOf e else {}

/-- Whether an entry comes from a line of a source, and from a column of it if one is asked for. -/
def comesFrom (slot : Nat) (line : UInt32) (column : Option UInt32) (e : Entry) : Bool :=
  match e.place? with
  | none => false
  | some place =>
    place.source == slot && place.position.line == line &&
      (column.isNone || column == some place.position.column)

/-- All places to which the code of an original line has gone, or the code at a column of it. The
first line that is not before the given one counts, or on the line itself the first column that is
not before the given one. -/
def allGeneratedPositionsFor (v : View) (source : String) (line : UInt32)
    (column : Option UInt32) : List GeneratedPosition :=
  match v.sourceSlot? source with
  | none => []
  | some slot =>
    let position := { line, column := column.getD 0 }
    match v.table.findOriginal? { source := slot, position } .leastUpperBound with
    | none => []
    | some start =>
      match v.table.original[start]?.bind Entry.place? with
      | none => []
      | some found =>
        if found.source = slot then
          let wanted :=
            match column with
            | none => comesFrom slot found.position.line none
            | some _ => comesFrom slot line (some found.position.column)
          ((v.table.original.toList.drop start).takeWhile wanted).map positionOf
        else []

end View

end SourceMap

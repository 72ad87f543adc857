import SourceMap.Error
import SourceMap.Mappings.Shift
import SourceMap.Mappings.View

/-!
# Merging sections

The mappings of all sections are put into one view, in the coordinates of the file and with string
tables of their own. The first section that has no mappings to give, or a mapping that does not fit
the file, is named in the error.
-/

set_option autoImplicit false

namespace SourceMap

/-- A view under way. The entries are in reverse. -/
structure Merge where
  sources : StringTable := .empty
  names : StringTable := .empty
  entries : List Entry := []

namespace Merge

/-- Adds the name of a mapping, if it has one. -/
def addName (names : StringTable) : Option String → Option Nat × StringTable
  | none => (none, names)
  | some name =>
    let (slot, names) := names.add name false
    (some slot, names)

/-- Adds a mapping whose generated position is known in the file. A name without a source is
dropped. -/
def add (g : Merge) (generated : Position) (m : Mapping) : Merge :=
  match m.original with
  | none => { g with entries := { generated } :: g.entries }
  | some o =>
    let (source, sources) := g.sources.add o.source false
    let (name, names) := addName g.names m.name
    let place := { source, position := o.position }
    { sources, names, entries := { generated, origin := some { place, name } } :: g.entries }

/-- Adds the mappings of a section. -/
def addSection (index : Nat) (offset : Position) (g : Merge) : List Mapping → Except Error Merge
  | [] => .ok g
  | m :: ms =>
    match offset.toGlobal? m.generated with
    | none => .error (.inSection index (.outOfRange (.mapping m)))
    | some generated => addSection index offset (g.add generated m) ms

/-- Adds the mappings of all sections, the first of which has the given index. -/
def addSections (index : Nat) (g : Merge) :
    List (Position × Except Error (List Mapping)) → Except Error Merge
  | [] => .ok g
  | (_, .error e) :: _ => .error (.inSection index e)
  | (offset, .ok ms) :: sections =>
    match addSection index offset g ms with
    | .error e => .error e
    | .ok g => addSections (index + 1) g sections

/-- The view that has been put together. -/
def view (g : Merge) : View where
  table := .ofList g.entries.reverse
  sources := g.sources
  names := g.names

end Merge

/-- The view of all sections, given by their offsets and their mappings. -/
def View.merge (sections : List (Position × Except Error (List Mapping))) : Except Error View :=
  (Merge.addSections 0 {} sections).map Merge.view

end SourceMap

import SourceMap.Error
import SourceMap.Mappings.Text
import SourceMap.Mappings.View
import SourceMap.Record

/-!
# Flat maps

A flat map has one `mappings` text for the whole generated file. A map whose text cannot be read is
still a map: its sources and contents can be asked for, and every query that needs the mappings
gives the error.
-/

set_option autoImplicit false

namespace SourceMap

/-- A map without sections. -/
structure FlatMap where
  file : Option String
  root : Option String
  sources : StringTable
  names : StringTable
  /-- The contents of the sources, slot by slot, if there are any. -/
  contents : Option (Array (Option String))
  table : Except Error MappingTable

namespace FlatMap

/-! ## Reading a record -/

/-- A source as it is kept in the table: normalized, and relative to an absolute root if it is
absolute itself. A null source is the empty one. -/
def storedSource (root : Option String) : Option String → String
  | none => ""
  | some source =>
    let source := Path.normalize source
    match root with
    | none => source
    | some r =>
      if Path.isAbsolute r && Path.isAbsolute source then Path.relative r source else source

/-- The map that a record without sections describes. An empty root is none, and there are as many
contents as sources, if there are any. -/
def ofRecord (r : Record) : Except Error FlatMap :=
  let root := r.sourceRoot.filter (!·.isEmpty)
  let sources := r.sources.getD []
  let build : FlatMap :=
    let sources := StringTable.ofList (sources.map (storedSource root)) true
    let names := StringTable.ofList (r.names.getD []) true
    { file := r.file, root, sources, names
      contents := r.sourcesContent.map List.toArray
      table := MappingTable.decode (r.mappings.getD "")
        { sources := sources.size, names := names.size } }
  match r.sourcesContent with
  | none => .ok build
  | some contents =>
    if contents.length = sources.length then .ok build
    else .error (.contentsMismatch sources.length contents.length)

/-! ## Queries -/

/-- The mappings with the names they stand for. -/
def view (m : FlatMap) : Except Error View :=
  m.table.map fun table => { table, sources := m.sources, names := m.names, root := m.root }

/-- The sources by their full names. -/
def sourceNames (m : FlatMap) : List String :=
  m.sources.toList.map (SourceRoot.resolve m.root)

/-- Whether a source, by its full name, is in the map. -/
def hasSource (m : FlatMap) (source : String) : Bool :=
  m.sources.contains (SourceRoot.relativize m.root source)

/-- The content of a source of the table: `none` if it is not in the table, `some none` if it is
without content. -/
def storedContent? (m : FlatMap) (contents : Array (Option String)) (source : String) :
    Option (Option String) :=
  (m.sources.indexOf? source).map fun i => (contents[i]?).join

/-- A text without `file://` before it. -/
def withoutFileScheme (source : String) : String :=
  match "file://".toList.isPrefixOf? source.toList with
  | none => source
  | some rest => String.ofList rest

/-- The names under which a source may be in the table. A root that is a `file` URL may have
sources written as plain paths, and a root that is the top of its host may have absolute ones. -/
def spellings (m : FlatMap) (source : String) : List String :=
  source :: match m.root.bind Url.parse? with
    | none => []
    | some url =>
      (if url.scheme = "file".toList then [withoutFileScheme source] else []) ++
      (if url.path = [] ∨ url.path = ['/'] then ["/" ++ source] else [])

/-- The content of a source. A source that is not in the map is an error, unless `nullOnMissing`
is set. -/
def contentFor (m : FlatMap) (source : String) (nullOnMissing : Bool) :
    Except Error (Option String) :=
  match m.contents with
  | none => .ok none
  | some contents =>
    let source := SourceRoot.relativize m.root source
    match (m.spellings source).findSome? (m.storedContent? contents) with
    | some content => .ok content
    | none => if nullOnMissing then .ok none else .error (.sourceNotFound source)

/-- Whether every source has its content. -/
def hasAllContents (m : FlatMap) : Bool :=
  match m.contents with
  | none => false
  | some contents => m.sources.size ≤ contents.size && contents.all Option.isSome

/-- The map with the last column of every entry. -/
def withSpans (m : FlatMap) : FlatMap :=
  { m with table := m.table.map MappingTable.withSpans }

end FlatMap

end SourceMap

import SourceMap.LoadedMap
import SourceMap.MappingLog
import SourceMap.Record.Writer

/-!
# Builders

A builder makes a flat map, one mapping at a time. It can start from a loaded map, and it can be
taken through one: mappings that point into a file which was itself generated are then made to point
to where that file came from.

The sources and names of the mappings are registered in the order in which they first occur.
Contents are kept by source, as it is seen from the source root.
-/

set_option autoImplicit false

namespace SourceMap

/-- A map in the making. -/
structure Builder where
  file : Option String := none
  root : Option String := none
  sources : StringTable := .empty
  names : StringTable := .empty
  log : MappingLog := {}
  /-- The contents that are known, by source. There is no table without contents. -/
  contents : Option (Std.TreeMap String String) := none

namespace Builder

instance : Inhabited Builder := ⟨{}⟩

/-- The mappings in the order in which they were added. -/
def mappings (b : Builder) : List Mapping :=
  b.log.mappings.toList

/-! ## Adding mappings and contents -/

/-- The sources with the source of a mapping, if it has one. -/
def registerSource (sources : StringTable) (m : Mapping) : StringTable :=
  match m.source? with
  | none => sources
  | some source => sources.insert source

/-- The names with the name of a mapping, if it has one. -/
def registerName (names : StringTable) (m : Mapping) : StringTable :=
  match m.name with
  | none => names
  | some name => names.insert name

/-- Adds a mapping, unless it has a fault. -/
def addMapping (b : Builder) (m : Mapping) : Except Error Builder :=
  match m.fault? with
  | some fault => .error (.invalidMapping fault m)
  | none =>
    .ok { b with
      sources := registerSource b.sources m
      names := registerName b.names m
      log := b.log.add m }

/-- Sets the content of a source, or forgets it. The last content that is forgotten takes the table
with it. -/
def setContent (b : Builder) (source : String) (content : Option String) : Builder :=
  let source := SourceRoot.relativize b.root source
  match content with
  | none => { b with contents := (b.contents.map (·.erase source)).filter (!·.isEmpty) }
  | some text => { b with contents := some ((b.contents.getD ∅).insert source text) }

/-- Takes over the contents that a map has for some of its sources. `rename` gives the names under
which they are kept. -/
def copyContents (b : Builder) (m : LoadedMap) (rename : String → String) :
    List String → Except Error Builder
  | [] => .ok b
  | source :: sources =>
    match m.contentFor source true with
    | .error e => .error e
    | .ok none => copyContents b m rename sources
    | .ok (some content) =>
      copyContents (b.setContent (rename source) (some content)) m rename sources

/-! ## Starting from a map -/

/-- A mapping whose source is as it is seen from a root. -/
def relativized (root : Option String) (m : Mapping) : Mapping :=
  { m with original := m.original.map fun o =>
      { o with source := SourceRoot.relativize root o.source } }

/-- The builder that has the mappings and contents of a map. -/
def ofMap (m : LoadedMap) : Except Error Builder := do
  let start : Builder := { file := m.file, root := m.root }
  let mappings ← m.mappings .generated
  let b ← mappings.foldlM (fun b mapping => b.addMapping (relativized m.root mapping)) start
  b.copyContents m id m.sourceNames

/-! ## Chaining maps -/

/-- The place that a map gives for a mapping into one of its generated files, if it gives one. -/
def lookUp (m : LoadedMap) (file : String) (mapping : Mapping) :
    Except Error (Option OriginalPosition) :=
  match mapping.original with
  | none => .ok none
  | some o =>
    if o.source = file then
      (m.originalPositionFor o.position .greatestLowerBound).map fun answer =>
        if answer.isEmpty then none else some answer
    else .ok none

/-- Moves a mapping to the place that was found for it. Its name stays if none was found. -/
def move (rename : String → String) (mapping : Mapping) : Option OriginalPosition → Mapping
  | none => mapping
  | some answer =>
    { mapping with
      original :=
        match mapping.original, answer.source, answer.line, answer.column with
        | some _, some source, some line, some column =>
          some { source := rename source, position := { line, column } }
        | original, _, _, _ => original
      name := answer.name.or mapping.name }

/-- The name of a source of another map, which is written as seen from `path`. -/
def rebase (path : Option String) (source : String) : String :=
  match path with
  | none => source
  | some path => Path.join path source

/-- Makes the mappings into `file`, by default the file of the map, point to where the map says that
they come from. Nothing changes unless every lookup succeeds. A mapping for which the map has no
place stays as it is. -/
def applyMap (b : Builder) (m : LoadedMap) (file path : Option String) :
    Except Error Builder := do
  match file.or m.file with
  | none => throw .missingFile
  | some file =>
    let file := SourceRoot.relativize b.root file
    let found ← b.mappings.mapM (lookUp m file)
    let rename source := SourceRoot.relativize b.root (rebase path source)
    let moved := List.zipWith (move rename) b.mappings found
    let b : Builder :=
      { b with
        sources := moved.foldl registerSource .empty
        names := moved.foldl registerName .empty
        log := b.log.replace moved }
    b.copyContents m (rebase path) m.sourceNames

/-! ## The finished map -/

/-- A mapping with slots in place of its source and name. -/
def entry (b : Builder) (m : Mapping) : Entry where
  generated := m.generated
  origin :=
    match m.original with
    | none => none
    | some o => (b.sources.indexOf? o.source).map fun source =>
      { place := { source, position := o.position }, name := m.name.bind b.names.indexOf? }

/-- The `mappings` text. A mapping that is equal to the one before it is left out. -/
def writeMappings (b : Builder) : String :=
  Entry.encodeAll (b.log.sorted.eraseReps.map b.entry)

/-- The content of a source of the table. -/
def contentOf (b : Builder) (source : String) : Option String :=
  b.contents.bind (·[SourceRoot.relativize b.root source]?)

/-- The contents of all sources, slot by slot. -/
def sourcesContent (b : Builder) : List (Option String) :=
  b.sources.toList.map b.contentOf

/-- The record of the map. It has contents if the builder has any. -/
def toRecord (b : Builder) : Record where
  version := some LoadedMap.supportedVersion
  file := b.file
  sourceRoot := b.root
  sources := some (b.sources.toList.map some)
  sourcesContent := b.contents.map fun _ => b.sourcesContent
  names := some b.names.toList
  mappings := some b.writeMappings

/-- The map itself, without the detour through a record. -/
def toMap (b : Builder) : LoadedMap :=
  .flat
    { file := b.file
      root := b.root
      sources := b.sources
      names := b.names
      contents := some b.sourcesContent.toArray
      table := .ok (.ofList (b.mappings.map b.entry)) }

end Builder

end SourceMap

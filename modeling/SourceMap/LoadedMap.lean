import SourceMap.FlatMap
import SourceMap.Mappings.Merge
import SourceMap.Record.Reader

/-!
# Loaded maps

A loaded map answers queries. It is either flat or an index map, whose sections are loaded maps
with an offset each. A position is looked up in the section that covers it. Queries over all
mappings go to one view merged from all sections.
-/

set_option autoImplicit false

namespace SourceMap

/-- A map and where it starts in the file: the line counts from 1 and the column from 0. -/
structure Placed (μ : Type) where
  offset : Position
  map : μ

/-- A map that answers queries. -/
inductive LoadedMap where
  | flat (map : FlatMap)
  /-- The merged view of an index map is made once, with the map. -/
  | index (file : Option String) (sections : List (Placed LoadedMap)) (merged : Except Error View)

namespace LoadedMap

/-- All mappings of a map with the names they stand for. -/
def view : LoadedMap → Except Error View
  | .flat m => m.view
  | .index _ _ merged => merged

/-- The mappings of a map, in one of their orders. -/
def mappings (m : LoadedMap) (order : Order) : Except Error (List Mapping) :=
  m.view.map (·.mappings order)

/-- The index map with given sections. -/
def ofSections (file : Option String) (sections : List (Placed LoadedMap)) : LoadedMap :=
  .index file sections
    (View.merge (sections.map fun s => (s.offset, s.map.mappings .generated)))

/-! ## Reading a record -/

/-- The version of the format that is understood. -/
def supportedVersion : UInt32 := 3

mutual

/-- The map that a record describes. -/
def ofRecord : Record → Except Error LoadedMap
  | ⟨version, file, sourceRoot, sources, sourcesContent, names, mappings, sections⟩ =>
    if version = some supportedVersion then
      match sections with
      | none =>
        (FlatMap.ofRecord
          { file, sourceRoot, sources, sourcesContent, names, mappings }).map .flat
      | some ss => (placeAll 0 .zero ss).map (ofSections file)
    else .error (.unsupportedVersion version)
  termination_by structural r => r

/-- The sections of a record, the first of which has the given index, when the section before them
starts at the offset `last`. -/
def placeAll (index : Nat) (last : Offset) :
    List (Section Record) → Except Error (List (Placed LoadedMap))
  | [] => .ok []
  | ⟨offset, map, url⟩ :: ss =>
    if url.isSome then .error (.sectionByUrl index)
    else if (compare offset last).isLT then .error .unorderedSections
    else match map with
      | none => .error (.sectionWithoutMap index)
      | some r =>
        match ofRecord r with
        | .error e => .error (.inSection index e)
        | .ok map =>
          match Coordinate.add? offset.line 1 with
          | none => .error (.sectionOffsetOutOfRange index)
          | some line =>
            match placeAll (index + 1) offset ss with
            | .error e => .error e
            | .ok placed => .ok ({ offset := { line, column := offset.column }, map } :: placed)
  termination_by structural ss => ss

end

/-- The map in a document. -/
def parse (bytes : ByteArray) : Except Error LoadedMap :=
  match Record.parse bytes with
  | .error e => .error e
  | .ok r => ofRecord r

/-! ## What a map says of itself -/

/-- The name of the generated file. -/
def file : LoadedMap → Option String
  | .flat m => m.file
  | .index file _ _ => file

/-- The root of the sources. An index map has none. -/
def root : LoadedMap → Option String
  | .flat m => m.root
  | .index _ _ _ => none

/-- The sections of an index map. -/
def sections? : LoadedMap → Option (List (Placed LoadedMap))
  | .flat _ => none
  | .index _ sections _ => some sections

/-- The map that is reached through section after section. -/
def descend? : LoadedMap → List Nat → Option LoadedMap
  | m, [] => some m
  | .flat _, _ :: _ => none
  | .index _ sections _, i :: path => (sections[i]?).bind fun s => s.map.descend? path

mutual

/-- The sources of a map by their full names, section by section. -/
def sourceNames : LoadedMap → List String
  | .flat m => m.sourceNames
  | .index _ sections _ => allSourceNames sections
  termination_by structural m => m

/-- The sources of all sections, one section after the other. -/
def allSourceNames : List (Placed LoadedMap) → List String
  | [] => []
  | ⟨_, m⟩ :: sections => sourceNames m ++ allSourceNames sections
  termination_by structural sections => sections

end

mutual

/-- Whether a source, by its full name, is in a map. -/
def hasSource (source : String) : LoadedMap → Bool
  | .flat m => m.hasSource source
  | .index _ sections _ => anyHasSource source sections
  termination_by structural m => m

/-- Whether a source is in one of the sections. -/
def anyHasSource (source : String) : List (Placed LoadedMap) → Bool
  | [] => false
  | ⟨_, m⟩ :: sections => hasSource source m || anyHasSource source sections
  termination_by structural sections => sections

end

mutual

/-- The content of a source, from the first section that has it. A source that is not in the map is
an error, unless `nullOnMissing` is set. -/
def contentFor (source : String) (nullOnMissing : Bool) :
    LoadedMap → Except Error (Option String)
  | .flat m => m.contentFor source nullOnMissing
  | .index _ sections _ =>
    match firstContent source sections with
    | .error e => .error e
    | .ok (some content) => .ok (some content)
    | .ok none => if nullOnMissing then .ok none else .error (.sourceNotFound source)
  termination_by structural m => m

/-- The content of a source in the first section that has it. -/
def firstContent (source : String) :
    List (Placed LoadedMap) → Except Error (Option String)
  | [] => .ok none
  | ⟨_, m⟩ :: sections =>
    match contentFor source true m with
    | .error e => .error e
    | .ok (some content) => .ok (some content)
    | .ok none => firstContent source sections
  termination_by structural sections => sections

end

mutual

/-- Whether every source has its content. -/
def hasAllContents : LoadedMap → Bool
  | .flat m => m.hasAllContents
  | .index _ sections _ => allHaveContents sections
  termination_by structural m => m

/-- Whether every source of every section has its content. -/
def allHaveContents : List (Placed LoadedMap) → Bool
  | [] => true
  | ⟨_, m⟩ :: sections => hasAllContents m && allHaveContents sections
  termination_by structural sections => sections

end

/-! ## Queries -/

/-- The index of the section that covers a position. -/
def sectionAt? (sections : List (Placed LoadedMap)) (p : Position) : Option Nat :=
  Search.findIndex? Placed.offset p sections.toArray .greatestLowerBound

mutual

/-- Where the code at a generated position comes from. -/
def originalPositionFor (p : Position) (bias : Bias) :
    LoadedMap → Except Error OriginalPosition
  | .flat m => m.view.map (·.originalPositionFor p bias)
  | .index _ sections _ =>
    match sectionAt? sections p with
    | none => .ok {}
    | some i =>
      match originalPositionIn p bias i sections with
      | .error e => .error (.inSection i e)
      | .ok answer => .ok answer
  termination_by structural m => m

/-- The same for the section at an index. -/
def originalPositionIn (p : Position) (bias : Bias) :
    Nat → List (Placed LoadedMap) → Except Error OriginalPosition
  | _, [] => .ok {}
  | 0, ⟨offset, m⟩ :: _ => originalPositionFor (offset.toLocal p) bias m
  | i + 1, _ :: sections => originalPositionIn p bias i sections
  termination_by structural _ sections => sections

end

/-- The answer of a section in the coordinates of the file. A span past the last column runs to the
end of the line. -/
def toGlobalAnswer (offset : Position) (found : GeneratedPosition) (p : Position) :
    Except Error GeneratedPosition :=
  match offset.toGlobal? p with
  | none => .error (.outOfRange (.position p))
  | some g =>
    .ok
      { line := some g.line
        column := some g.column
        lastColumn := found.lastColumn.map fun last =>
          if last = Coordinate.unbounded then last
          else (offset.shiftColumn? p.line last).getD Coordinate.unbounded }

mutual

/-- Where the code at an original position has gone, in the first section that knows it. -/
def generatedPositionFor (source : String) (p : Position) (bias : Bias) :
    LoadedMap → Except Error GeneratedPosition
  | .flat m => m.view.map (·.generatedPositionFor source p bias)
  | .index _ sections _ => generatedPositionIn source p bias 0 sections
  termination_by structural m => m

/-- The same for sections, the first of which has the given index. -/
def generatedPositionIn (source : String) (p : Position) (bias : Bias) (index : Nat) :
    List (Placed LoadedMap) → Except Error GeneratedPosition
  | [] => .ok {}
  | ⟨offset, m⟩ :: sections =>
    if hasSource source m then
      match generatedPositionFor source p bias m with
      | .error e => .error (.inSection index e)
      | .ok found =>
        match found.line, found.column with
        | some line, some column =>
          match toGlobalAnswer offset found { line, column } with
          | .error e => .error (.inSection index e)
          | .ok answer => .ok answer
        | _, _ => generatedPositionIn source p bias (index + 1) sections
    else generatedPositionIn source p bias (index + 1) sections
  termination_by structural sections => sections

end

/-- All places to which the code of an original line has gone, or the code at a column of it. -/
def allGeneratedPositionsFor (m : LoadedMap) (source : String) (line : UInt32)
    (column : Option UInt32) : Except Error (List GeneratedPosition) :=
  m.view.map (·.allGeneratedPositionsFor source line column)

/-! ## Spans -/

mutual

/-- Computes the last column of every mapping. Sections are updated one after the other, up to the
first that fails, and the merged view only if none does. -/
def computeSpans : LoadedMap → Except Error Unit × LoadedMap
  | .flat m => (m.table.map fun _ => (), .flat m.withSpans)
  | .index file sections merged =>
    match computeSpansIn 0 sections with
    | (.error e, sections) => (.error e, .index file sections merged)
    | (.ok (), sections) =>
      (merged.map fun _ => (), .index file sections (merged.map View.withSpans))
  termination_by structural m => m

/-- The same for sections, the first of which has the given index. -/
def computeSpansIn (index : Nat) :
    List (Placed LoadedMap) → Except Error Unit × List (Placed LoadedMap)
  | [] => (.ok (), [])
  | ⟨offset, m⟩ :: sections =>
    match computeSpans m with
    | (.error e, m) => (.error (.inSection index e), { offset, map := m } :: sections)
    | (.ok (), m) =>
      let (outcome, sections) := computeSpansIn (index + 1) sections
      (outcome, { offset, map := m } :: sections)
  termination_by structural sections => sections

end

end LoadedMap

end SourceMap

import SourceMap.Json.Printer
import SourceMap.Record

/-!
# Writing records

A record is written as a JSON object, behind what has been written before. Its fields come in a
fixed order, and those that are absent are left out. There is a comma before every field but the
first one that is written.

How numbers, strings and lists of strings are spelled is left open (`Record.Printer`).
-/

set_option autoImplicit false

namespace SourceMap

open Json (Value)

/-- A string, or null. -/
def Json.Value.ofNullable : Option String → Value
  | none => .null
  | some s => .string s

namespace Record

/-- The spellings of the parts of a record that are not made of fields. -/
structure Printer where
  number : UInt32 → String
  string : String → String
  strings : List String → String
  /-- A list of strings, some of which may be null. -/
  nullables : List (Option String) → String

/-- What has been written of an object, and whether its next field is the first one. -/
structure FieldWriter where
  out : String
  first : Bool

namespace FieldWriter

/-- Writes the key of the next field, after a comma unless the field is the first one. -/
def key (w : FieldWriter) (key : String) : FieldWriter :=
  let out := if w.first then w.out else w.out ++ ","
  { out := out ++ "\"" ++ key ++ "\":", first := false }

/-- Writes what comes behind a key. -/
def append (w : FieldWriter) (text : String) : FieldWriter :=
  { w with out := w.out ++ text }

/-- Writes a field unless it is absent. -/
def optional (w : FieldWriter) (key : String) : Option String → FieldWriter
  | none => w
  | some text => (w.key key).append text

end FieldWriter

mutual

/-- Writes a record. -/
def writeTo (p : Printer) (out : String) : Record → String
  | ⟨version, file, sourceRoot, sources, sourcesContent, names, mappings, sections⟩ =>
    let w : FieldWriter := { out := out ++ "\x7b", first := true }
    let w := w.optional "version" (version.map p.number)
    let w := w.optional "file" (file.map p.string)
    let w := w.optional "sourceRoot" (sourceRoot.map p.string)
    let w := w.optional "sources" (sources.map p.nullables)
    let w := w.optional "sourcesContent" (sourcesContent.map p.nullables)
    let w := w.optional "names" (names.map p.strings)
    let w := w.optional "mappings" (mappings.map p.string)
    let out :=
      match sections with
      | none => w.out
      | some ss => writeSections p ((w.key "sections").out ++ "[") 0 ss ++ "]"
    out ++ "\x7d"
  termination_by structural r => r

/-- Writes sections from an index on, with commas between them. -/
def writeSections (p : Printer) (out : String) (index : Nat) : List (Section Record) → String
  | [] => out
  | s :: ss =>
    let out := if 0 < index then out ++ "," else out
    writeSections p (writeSection p out s) (index + 1) ss
  termination_by structural ss => ss

/-- Writes a section. -/
def writeSection (p : Printer) (out : String) : Section Record → String
  | ⟨offset, map, url⟩ =>
    let out := out ++ "\x7b\"offset\":\x7b\"line\":" ++ toString offset.line ++ ",\"column\":" ++
      toString offset.column ++ "\x7d"
    let out :=
      match map with
      | none => out
      | some r => writeTo p (out ++ ",\"map\":") r
    let out :=
      match url with
      | none => out
      | some url => out ++ ",\"url\":" ++ p.string url
    out ++ "\x7d"
  termination_by structural s => s

end

/-- Spellings without blanks. -/
def compact : Printer where
  number w := (Value.nat w.toNat).render
  string s := (Value.string s).render
  strings ss := (Value.array (ss.map .string)).render
  nullables os := (Value.array (os.map .ofNullable)).render

/-- The text of a record. -/
def write (r : Record) : String :=
  writeTo compact "" r

end Record

end SourceMap

import SourceMap.Error
import SourceMap.Json.Parser
import SourceMap.Record

/-!
# Reading records

A record is a JSON object. Fields that a record does not have are passed over. A field may be
repeated: each time it must have the right type, and the last time counts. A field that is null is
absent.

The bytes of a document may start with a guard, the characters `)]}'` and the rest of their line.
Where the document has no other line, the guard is these four characters. What comes after the
guard is UTF-8. A document can be read in other ways than by `read`, too (`parseWith`).
-/

set_option autoImplicit false

namespace SourceMap

open Json (Value)

/-! ## Values of a type -/

namespace Json.Value

/-- A value of a type, or null. -/
def nullable? {α : Type} (read? : Value → Option α) : Value → Option (Option α)
  | .null => some none
  | v => (read? v).map some

/-- A string. -/
def string? : Value → Option String
  | .string s => some s
  | _ => none

/-- A coordinate, which is a whole number of 32 bits. -/
def word? : Value → Option UInt32
  | .number (.whole n) => Coordinate.ofInt? n
  | _ => none

/-- An array with elements of a type. -/
def list? {α : Type} (read? : Value → Option α) : Value → Option (List α)
  | .array vs => vs.mapM read?
  | _ => none

end Json.Value

/-- An offset needs both its numbers. -/
def Offset.ofJson? : Value → Option Offset
  | .object fields => do
    let lines ← (fields.filter (·.1 == "line")).mapM (·.2.word?)
    let columns ← (fields.filter (·.1 == "column")).mapM (·.2.word?)
    some { line := ← lines.getLast?, column := ← columns.getLast? }
  | _ => none

namespace Record

/-- Sets a field that is not `sections`. -/
def setPlain? (r : Record) (key : String) (v : Value) : Option Record :=
  if key = "version" then (v.nullable? Value.word?).map ({ r with version := · })
  else if key = "file" then (v.nullable? Value.string?).map ({ r with file := · })
  else if key = "sourceRoot" then (v.nullable? Value.string?).map ({ r with sourceRoot := · })
  else if key = "sources" then
    (v.nullable? (Value.list? (Value.nullable? Value.string?))).map ({ r with sources := · })
  else if key = "sourcesContent" then
    (v.nullable? (Value.list? (Value.nullable? Value.string?))).map
      ({ r with sourcesContent := · })
  else if key = "names" then
    (v.nullable? (Value.list? Value.string?)).map ({ r with names := · })
  else if key = "mappings" then (v.nullable? Value.string?).map ({ r with mappings := · })
  else some r

/-- A section of which only some fields have been read. -/
structure Draft where
  offset : Option Offset := none
  map : Option Record := none
  url : Option String := none

/-- Sets a field of a section that is not `map`. -/
def Draft.setPlain? (d : Draft) (key : String) (v : Value) : Option Draft :=
  if key = "offset" then (Offset.ofJson? v).map ({ d with offset := some · })
  else if key = "url" then (v.nullable? Value.string?).map ({ d with url := · })
  else some d

/-- A section needs an offset. -/
def Draft.finish? (d : Draft) : Option (Section Record) :=
  d.offset.map fun offset => { offset, map := d.map, url := d.url }

mutual

/-- The record that an object spells. -/
def ofJson? : Value → Option Record
  | .object fields => setAll? empty fields
  | _ => none
  termination_by structural v => v

/-- Sets fields one after the other. -/
def setAll? (r : Record) : List (String × Value) → Option Record
  | [] => some r
  | (key, v) :: fields =>
    if key = "sections" then
      match v with
      | .null => setAll? { r with sections := none } fields
      | .array vs =>
        match sectionsOf? vs with
        | none => none
        | some ss => setAll? { r with sections := some ss } fields
      | _ => none
    else match r.setPlain? key v with
      | none => none
      | some r => setAll? r fields
  termination_by structural fields => fields

/-- The sections that a row of objects spells. -/
def sectionsOf? : List Value → Option (List (Section Record))
  | [] => some []
  | v :: vs =>
    match sectionOf? v, sectionsOf? vs with
    | some s, some ss => some (s :: ss)
    | _, _ => none
  termination_by structural vs => vs

/-- The section that an object spells. -/
def sectionOf? : Value → Option (Section Record)
  | .object fields =>
    match draftAll? {} fields with
    | none => none
    | some d => d.finish?
  | _ => none
  termination_by structural v => v

/-- Sets fields of a section one after the other. -/
def draftAll? (d : Draft) : List (String × Value) → Option Draft
  | [] => some d
  | (key, v) :: fields =>
    if key = "map" then
      match v with
      | .null => draftAll? { d with map := none } fields
      | v =>
        match ofJson? v with
        | none => none
        | some r => draftAll? { d with map := some r } fields
    else match d.setPlain? key v with
      | none => none
      | some d => draftAll? d fields
  termination_by structural fields => fields

end

/-! ## Documents -/

/-- The bytes of a document after its guard, if it has one. -/
def dropGuard : List UInt8 → List UInt8
  | 0x29 :: 0x5D :: 0x7D :: 0x27 :: rest =>
    match rest.dropWhile (· != 0x0A) with
    | [] => rest
    | _ :: body => body
  | bytes => bytes

/-- The record that the bytes behind the guard of a document are read as. How they are read is left
open. -/
def parseWith (read : ByteArray → Option Record) (bytes : ByteArray) : Except Error Record :=
  match read ⟨(dropGuard bytes.data.toList).toArray⟩ with
  | none => .error .malformedRecord
  | some r => .ok r

/-- The record that a JSON text in UTF-8 spells. -/
def read (bytes : ByteArray) : Option Record :=
  (String.fromUTF8? bytes).bind fun text => (Value.parse? text).bind ofJson?

/-- The record that the bytes of a document spell. -/
def parse (bytes : ByteArray) : Except Error Record :=
  parseWith read bytes

end Record

end SourceMap

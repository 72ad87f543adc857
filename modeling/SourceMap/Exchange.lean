import SourceMap.Answer
import SourceMap.Mapping
import SourceMap.Record.Reader
import SourceMap.Search

/-!
# Values for exchange

Positions, mappings, answers and options can be written as JSON and read back. An option is its
name, or an object with its name as the only key and null as the value. A record is an object with
all its fields, or an array with the values of all its fields in order. In an object unknown fields
are passed over, and a field that may be absent may also be left out or be null.
-/

set_option autoImplicit false

namespace SourceMap

open Json (Value)

namespace Exchange

/-! ## Shapes -/

/-- The option with a name. -/
def option? {α : Type} (options : List (String × α)) : Value → Option α
  | .string s => options.lookup s
  | .object [(s, .null)] => options.lookup s
  | _ => none

/-- The values of the fields of a record, as far as they are there. -/
def parts? (keys : List String) (v : Value) : Option (List (Option Value)) :=
  match v with
  | .object _ => some (keys.map (v.get? ·))
  | .array vs => if vs.length = keys.length then some (vs.map some) else none
  | _ => none

/-- The value of a field that must be there. -/
def required {α : Type} (read? : Value → Option α) : Option Value → Option α
  | none => none
  | some v => read? v

/-- The value of a field that may be absent. -/
def optional {α : Type} (read? : Value → Option α) : Option Value → Option (Option α)
  | none => some none
  | some v => v.nullable? read?

/-- A coordinate. -/
def word (w : UInt32) : Value :=
  .nat w.toNat

/-- A value, or null where there is none. -/
def orNull {α : Type} (write : α → Value) : Option α → Value
  | none => .null
  | some a => write a

end Exchange

open Exchange

/-! ## Options -/

namespace Bias

/-- The biases by name. -/
def names : List (String × Bias) :=
  [("GreatestLowerBound", .greatestLowerBound), ("LeastUpperBound", .leastUpperBound)]

/-- Reads a bias. -/
def ofJson? (v : Value) : Option Bias :=
  option? names v

/-- Writes a bias as its name. -/
def toJson : Bias → Value
  | .greatestLowerBound => .string "GreatestLowerBound"
  | .leastUpperBound => .string "LeastUpperBound"

end Bias

namespace Order

/-- The orders by name. -/
def names : List (String × Order) :=
  [("Generated", .generated), ("Original", .original)]

/-- Reads an order. -/
def ofJson? (v : Value) : Option Order :=
  option? names v

/-- Writes an order as its name. -/
def toJson : Order → Value
  | .generated => .string "Generated"
  | .original => .string "Original"

end Order

/-! ## Positions and mappings -/

/-- Reads a position, which needs both its numbers. -/
def Position.ofJson? (v : Value) : Option Position := do
  match ← parts? ["line", "column"] v with
  | [line, column] =>
    some { line := ← required Value.word? line, column := ← required Value.word? column }
  | _ => none

/-- Writes a position. -/
def Position.toJson (p : Position) : Value :=
  .object [("line", word p.line), ("column", word p.column)]

/-- Reads a location, which needs both its parts. -/
def OriginalLocation.ofJson? (v : Value) : Option OriginalLocation := do
  match ← parts? ["source", "position"] v with
  | [source, position] =>
    some
      { source := ← required Value.string? source
        position := ← required Position.ofJson? position }
  | _ => none

/-- Writes a location. -/
def OriginalLocation.toJson (o : OriginalLocation) : Value :=
  .object [("source", .string o.source), ("position", o.position.toJson)]

/-- Reads a mapping, which needs its generated position only. -/
def Mapping.ofJson? (v : Value) : Option Mapping := do
  match ← parts? ["generated", "original", "name"] v with
  | [generated, original, name] =>
    some
      { generated := ← required Position.ofJson? generated
        original := ← optional OriginalLocation.ofJson? original
        name := ← optional Value.string? name }
  | _ => none

/-- Writes a mapping, with null for what is absent. -/
def Mapping.toJson (m : Mapping) : Value :=
  .object
    [("generated", m.generated.toJson),
      ("original", orNull OriginalLocation.toJson m.original),
      ("name", orNull .string m.name)]

/-! ## Answers -/

/-- Reads an answer of which every part may be absent. -/
def OriginalPosition.ofJson? (v : Value) : Option OriginalPosition := do
  match ← parts? ["source", "line", "column", "name"] v with
  | [source, line, column, name] =>
    some
      { source := ← optional Value.string? source
        line := ← optional Value.word? line
        column := ← optional Value.word? column
        name := ← optional Value.string? name }
  | _ => none

/-- Writes an answer, with null for what is absent. -/
def OriginalPosition.toJson (p : OriginalPosition) : Value :=
  .object
    [("source", orNull .string p.source), ("line", orNull word p.line),
      ("column", orNull word p.column), ("name", orNull .string p.name)]

/-- Reads an answer of which every part may be absent. -/
def GeneratedPosition.ofJson? (v : Value) : Option GeneratedPosition := do
  match ← parts? ["line", "column", "last_column"] v with
  | [line, column, last] =>
    some
      { line := ← optional Value.word? line
        column := ← optional Value.word? column
        lastColumn := ← optional Value.word? last }
  | _ => none

/-- Writes an answer, with null for what is absent. -/
def GeneratedPosition.toJson (p : GeneratedPosition) : Value :=
  .object
    [("line", orNull word p.line), ("column", orNull word p.column),
      ("last_column", orNull word p.lastColumn)]

end SourceMap

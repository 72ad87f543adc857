import Std.Data.TreeMap
import SourceMap.Vlq

/-!
# Segments

A `mappings` text is made of segments. A semicolon ends a line and a comma ends a segment, and
segments without characters count for nothing. A segment spells one, four or five numbers: the
generated column, then the source, the original line and the original column, then the name, each
as the difference from the value before it.

Equal segments are frequent, so that a text is parsed once and what it spells is kept in a `Memo`.
-/

set_option autoImplicit false

namespace SourceMap

/-- A segment that is not empty, and the generated line it is on, counted from 1. -/
structure Segment where
  line : Nat
  text : List Char
deriving DecidableEq

namespace Segment

/-! ## Splitting a text -/

/-- Adds a segment, whose characters are in reverse, unless it is empty. -/
def push (line : Nat) (piece : List Char) (found : List Segment) : List Segment :=
  if piece.isEmpty then found else { line, text := piece.reverse } :: found

/-- Goes through a text with the part of the current segment that has been seen, in reverse, and the
segments before it, the last one first. -/
def scan (line : Nat) (piece : List Char) (found : List Segment) : List Char → List Segment
  | [] => (push line piece found).reverse
  | c :: cs =>
    if c = ';' then scan (line + 1) [] (push line piece found) cs
    else if c = ',' then scan line [] (push line piece found) cs
    else scan line (c :: piece) found cs

/-- The segments of a text in order. -/
def split (text : List Char) : List Segment :=
  scan 1 [] [] text

/-! ## Reading the numbers of a segment -/

/-- The error that names a segment by its text. -/
def malformed (text : List Char) : Error :=
  .malformedSegment (String.ofList text)

/-- Reads quantities up to the end of a segment, of which at most `room` may come. -/
def quantities (whole : List Char) : (room : Nat) → List Char → Except Error (List Int)
  | _, [] => .ok []
  | 0, _ :: _ => .error (malformed whole)
  | room + 1, c :: cs =>
    match Vlq.decode (c :: cs) with
    | .error e => .error e
    | .ok (v, rest) =>
      match quantities whole room rest with
      | .error e => .error e
      | .ok vs => .ok (v :: vs)

end Segment

/-! ## Differences -/

/-- The differences that lead to a place. -/
structure PlaceDelta where
  source : Int
  line : Int
  column : Int
  name : Option Int := none
deriving DecidableEq

/-- The differences that a segment spells. -/
structure Delta where
  column : Int
  place : Option PlaceDelta := none
deriving DecidableEq

namespace Delta

/-- The numbers of a segment, by their count. -/
def ofNumbers? : List Int → Option Delta
  | [column] => some { column }
  | [column, source, line, originalColumn] =>
    some { column, place := some { source, line, column := originalColumn } }
  | [column, source, line, originalColumn, name] =>
    some { column, place := some { source, line, column := originalColumn, name := some name } }
  | _ => none

/-- The numbers of a segment in order. -/
def numbers (d : Delta) : List Int :=
  d.column :: match d.place with
    | none => []
    | some p => p.source :: p.line :: p.column :: p.name.toList

/-- The numbers of a segment can be told apart by their count. -/
theorem ofNumbers?_numbers (d : Delta) : ofNumbers? d.numbers = some d := by
  obtain ⟨column, _ | ⟨source, line, originalColumn, _ | name⟩⟩ := d <;> rfl

/-- The differences that a segment spells. A wrong number of fields counts after a field that
cannot be read. -/
def parse (text : List Char) : Except Error Delta :=
  match Segment.quantities text 5 text with
  | .error e => .error e
  | .ok vs =>
    match ofNumbers? vs with
    | none => .error (Segment.malformed text)
    | some d => .ok d

/-- The text of a segment. -/
def write (d : Delta) : List Char :=
  d.numbers.flatMap Vlq.encode

end Delta

/-! ## Parsing a text once -/

/-- What the segments spell that have been parsed, by their texts. -/
structure Memo where
  parsed : Std.TreeMap String Delta
  /-- A text is kept with what it spells. -/
  parse_eq : ∀ {text : String} {d : Delta}, parsed[text]? = some d →
    Delta.parse text.toList = .ok d

namespace Memo

/-- The memo of no text. -/
def empty : Memo where
  parsed := ∅
  parse_eq h := by simp at h

/-- Keeps what one more text spells. -/
def insert (m : Memo) (text : List Char) (d : Delta) (spells : Delta.parse text = .ok d) :
    Memo where
  parsed := m.parsed.insert (String.ofList text) d
  parse_eq {text' d'} h := by
    rw [Std.TreeMap.getElem?_insert] at h
    split at h
    · rename_i heq
      rw [← Std.LawfulEqOrd.eq_of_compare heq, ← Option.some.inj h, String.toList_ofList]
      exact spells
    · exact m.parse_eq h

/-- The differences that a segment spells, which is parsed only if its text is new. -/
def parse (m : Memo) (text : List Char) : Except Error (Delta × Memo) :=
  match m.parsed[String.ofList text]? with
  | some d => .ok (d, m)
  | none =>
    match h : Delta.parse text with
    | .error e => .error e
    | .ok d => .ok (d, m.insert text d h)

/-- A memo makes no difference to what a segment spells. -/
theorem fst_parse (m : Memo) (text : List Char) :
    (m.parse text).map Prod.fst = Delta.parse text := by
  unfold parse
  split
  · rename_i d h
    have hparse := m.parse_eq h
    rw [String.toList_ofList] at hparse
    exact hparse.symm
  · split
    · rename_i e h
      exact h.symm
    · rename_i d h
      exact h.symm

end Memo

end SourceMap

import SourceMap.Mappings.Running
import SourceMap.Mappings.Table

/-!
# Mappings as text

A `mappings` text is read segment by segment into a table, and written from entries that are in
generated order.
-/

set_option autoImplicit false

namespace SourceMap

namespace Entry

/-- Reads a `mappings` text. The entries are in the order of their segments. -/
def decodeAll (text : String) (sizes : TableSizes) : Except Error (List Entry) :=
  Running.readAll sizes .empty {} [] (Segment.split text.toList)

/-- A text under way: what has been written, and the values it leaves behind. -/
structure Draft where
  text : String := ""
  first : Bool := true
  running : Running := {}

/-- Writes the segment of one more entry. -/
def Draft.write (d : Draft) (e : Entry) : Draft where
  text := d.text ++ String.ofList (d.running.separator d.first e ++
    ((d.running.enter e.generated.line.toNat).delta e).write)
  first := false
  running := d.running.after e

/-- Writes the `mappings` text of entries that are in generated order. -/
def encodeAll (es : List Entry) : String :=
  (es.foldl Draft.write {}).text

end Entry

/-- The table that a `mappings` text spells. -/
def MappingTable.decode (text : String) (sizes : TableSizes) : Except Error MappingTable :=
  (Entry.decodeAll text sizes).map .ofList

end SourceMap

import SourceMap.Mappings.Entry
import SourceMap.Search

/-!
# Mapping tables

A table holds entries in both of their orders, and finds the entry at or beside a position by
binary search. The entries in original order are those with a place, and always follow from the
entries in generated order.
-/

set_option autoImplicit false

namespace SourceMap

/-- Entries in generated order, and those of them that have a place in original order. -/
structure MappingTable where
  generated : Array Entry
  original : Array Entry
  original_eq : original = (Entry.sortOriginal generated.toList).toArray

namespace MappingTable

/-- The table of entries that are in generated order. -/
def ofSorted (es : List Entry) : MappingTable where
  generated := es.toArray
  original := (Entry.sortOriginal es).toArray
  original_eq := rfl

/-- The table of entries in any order. -/
def ofList (es : List Entry) : MappingTable :=
  ofSorted (Entry.sortGenerated es)

instance : Inhabited MappingTable := ⟨ofList []⟩

/-- The same table with the last column of every entry. -/
def withSpans (t : MappingTable) : MappingTable :=
  ofSorted (Entry.withSpans t.generated.toList)

/-- The entry at a generated position, or its neighbour on any line. -/
def findGenerated? (t : MappingTable) (p : Position) (bias : Bias) : Option Entry :=
  (Search.findIndex? Entry.generated p t.generated bias).bind fun i => t.generated[i]?

/-- The index, in original order, of the entry at a place, or of its neighbour in any source. -/
def findOriginal? (t : MappingTable) (place : Place) (bias : Bias) : Option Nat :=
  Search.findIndex? Entry.place? (some place) t.original bias

end MappingTable

end SourceMap

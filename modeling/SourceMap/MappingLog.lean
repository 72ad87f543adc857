import SourceMap.Mapping

/-!
# Mapping logs

A log keeps mappings in the order in which they were added and knows whether their generated
positions came in order too. A log that came in order is its own sorted list, in which mappings with
one generated position stay as they were added. Any other log is sorted by all parts of its
mappings.
-/

set_option autoImplicit false

namespace SourceMap

/-- Mappings in the order in which they were added. -/
structure MappingLog where
  mappings : Array Mapping := #[]
  /-- Whether no generated position is before that of the mapping added before it. -/
  inOrder : Bool := true
deriving DecidableEq, Inhabited

namespace MappingLog

/-- Whether a mapping may follow those of a log without breaking their order. -/
def follows (l : MappingLog) (m : Mapping) : Bool :=
  match l.mappings.back? with
  | none => true
  | some last => (compare last.generated m.generated).isLE

/-- Adds a mapping. -/
def add (l : MappingLog) (m : Mapping) : MappingLog :=
  let inOrder := l.inOrder && l.follows m
  { mappings := l.mappings.push m, inOrder }

/-- The log with other mappings at the same generated positions. -/
def replace (l : MappingLog) (ms : List Mapping) : MappingLog :=
  { l with mappings := ms.toArray }

/-- The mappings by generated position. -/
def sorted (l : MappingLog) : List Mapping :=
  if l.inOrder then l.mappings.toList else Mapping.sort l.mappings.toList

end MappingLog

end SourceMap

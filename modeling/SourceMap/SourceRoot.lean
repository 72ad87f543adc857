import SourceMap.Path

/-!
# Source roots

The sources of a map are written as seen from its source root, if it has one, and are named in full
to the outside.
-/

set_option autoImplicit false

namespace SourceMap.SourceRoot

/-- The full name of a source. -/
def resolve (root : Option String) (source : String) : String :=
  match root with
  | none => source
  | some root => Path.join root source

/-- A source as it is seen from the root. -/
def relativize (root : Option String) (source : String) : String :=
  match root with
  | none => source
  | some root => Path.relative root source

end SourceMap.SourceRoot

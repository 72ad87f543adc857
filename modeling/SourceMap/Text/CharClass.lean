import SourceMap.Search

/-!
# Classes of characters

A class of characters is an increasing row of borders: membership changes at each border, and the
characters below the first are outside. The classes of this library are taken from properties of
Unicode, each in the version that its comment names.
-/

set_option autoImplicit false

namespace SourceMap.Text

/-- A class of characters by its borders, in increasing order. -/
structure CharClass where
  borders : Array Nat

namespace CharClass

/-- A character belongs to a class if an odd number of borders is not above it. -/
def contains (k : CharClass) (c : Char) : Bool :=
  match Search.findIndex? id c.toNat k.borders .greatestLowerBound with
  | some i => i % 2 == 0
  | none => false

end CharClass

end SourceMap.Text

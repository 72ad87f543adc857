import SourceMap.Json.Number

/-!
# Values of JSON

An object keeps its fields in the order in which they are written, repeated keys included.
-/

set_option autoImplicit false

namespace SourceMap.Json

/-- A value. -/
inductive Value where
  | null
  | bool (b : Bool)
  | number (n : Number)
  | string (s : String)
  | array (elements : List Value)
  | object (fields : List (String × Value))
deriving Inhabited

namespace Value

/-- The whole number `n`. -/
def nat (n : Nat) : Value :=
  .number (.whole n)

/-- An object without some of its fields. -/
def ofFields (fields : List (String × Option Value)) : Value :=
  .object (fields.filterMap fun (key, v) => v.map (key, ·))

/-- The last field with a key. -/
def get? (key : String) : Value → Option Value
  | .object fields => (fields.reverse.find? (·.1 == key)).map (·.2)
  | _ => none

end Value

end SourceMap.Json

import SourceMap.Json.Token
import SourceMap.Json.Value

/-!
# Writing JSON

A value is written without blanks, its fields in their order.
-/

set_option autoImplicit false

namespace SourceMap.Json.Value

mutual

/-- The tokens of a value, before those that follow it. -/
def tokensThen : Value → List Token → List Token
  | .null, rest => .null :: rest
  | .bool b, rest => .bool b :: rest
  | .number n, rest => .number n :: rest
  | .string s, rest => .string s :: rest
  | .array vs, rest => .beginArray :: elementsThen vs (.endArray :: rest)
  | .object fields, rest => .beginObject :: fieldsThen fields (.endObject :: rest)
  termination_by structural v => v

/-- The tokens of the elements of an array, with commas between them. -/
def elementsThen : List Value → List Token → List Token
  | [], rest => rest
  | [v], rest => tokensThen v rest
  | v :: w :: vs, rest => tokensThen v (.comma :: elementsThen (w :: vs) rest)
  termination_by structural vs => vs

/-- The tokens of the fields of an object, with commas between them. -/
def fieldsThen : List (String × Value) → List Token → List Token
  | [], rest => rest
  | [(key, v)], rest => .string key :: .colon :: tokensThen v rest
  | (key, v) :: f :: fs, rest =>
    .string key :: .colon :: tokensThen v (.comma :: fieldsThen (f :: fs) rest)
  termination_by structural fields => fields

end

/-- The tokens of a value. -/
def tokens (v : Value) : List Token :=
  v.tokensThen []

/-- The text of a value. -/
def render (v : Value) : String :=
  String.ofList (v.tokens.flatMap Token.toChars)

end SourceMap.Json.Value

import SourceMap.Json.Token
import SourceMap.Json.Value

/-!
# Reading JSON

Tokens are put together by a machine that keeps the arrays and objects it is inside of on a stack,
so that a document may be nested to any depth. What a container has collected is in reverse.
-/

set_option autoImplicit false

namespace SourceMap.Json

/-- A container that waits for the value of its next element or field. -/
inductive Frame where
  | element (before : List Value)
  | field (before : List (String × Value)) (key : String)

/-- What has to come next in the innermost container. -/
inductive Expect where
  | value
  | firstElement
  | firstKey
  | key (before : List (String × Value))
  | colon (before : List (String × Value)) (key : String)
  | afterElement (before : List Value)
  | afterField (before : List (String × Value))
  | ending (document : Value)

/-- A machine in the middle of a document. -/
structure Parser where
  stack : List Frame := []
  expect : Expect := .value

namespace Parser

/-- A machine whose innermost container, or the document, has got its value. -/
def deliver (v : Value) : List Frame → Parser
  | [] => { stack := [], expect := .ending v }
  | .element before :: stack => { stack, expect := .afterElement (v :: before) }
  | .field before key :: stack => { stack, expect := .afterField ((key, v) :: before) }

/-- Reads the first token of a value. -/
def startValue? (stack : List Frame) : Token → Option Parser
  | .null => some (deliver .null stack)
  | .bool b => some (deliver (.bool b) stack)
  | .number n => some (deliver (.number n) stack)
  | .string s => some (deliver (.string s) stack)
  | .beginArray => some { stack, expect := .firstElement }
  | .beginObject => some { stack, expect := .firstKey }
  | _ => none

/-- Reads one token. -/
def step (p : Parser) (t : Token) : Option Parser :=
  match p.expect, t with
  | .value, t => startValue? p.stack t
  | .firstElement, .endArray => some (deliver (.array []) p.stack)
  | .firstElement, t => startValue? (.element [] :: p.stack) t
  | .firstKey, .endObject => some (deliver (.object []) p.stack)
  | .firstKey, .string key => some { p with expect := .colon [] key }
  | .key before, .string key => some { p with expect := .colon before key }
  | .colon before key, .colon => some { stack := .field before key :: p.stack, expect := .value }
  | .afterElement before, .comma =>
    some { stack := .element before :: p.stack, expect := .value }
  | .afterElement before, .endArray => some (deliver (.array before.reverse) p.stack)
  | .afterField before, .comma => some { p with expect := .key before }
  | .afterField before, .endObject => some (deliver (.object before.reverse) p.stack)
  | _, _ => none

/-- The value that has been read, if the document may end here. -/
def finish? (p : Parser) : Option Value :=
  match p.expect with
  | .ending v => some v
  | _ => none

end Parser

namespace Value

/-- The value that a row of tokens spells. -/
def ofTokens? (ts : List Token) : Option Value :=
  (ts.foldlM Parser.step {}).bind Parser.finish?

/-- The value that a text spells. -/
def parse? (text : String) : Option Value :=
  (Token.scan? text.toList).bind ofTokens?

end Value

end SourceMap.Json

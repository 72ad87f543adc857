import SourceMap.Text.Word

/-!
# URLs with an authority

A URL is an optional scheme and a colon, two slashes, an optional pair of word texts before an `@`,
a host, an optional port after a colon, and the rest, its path. A text without the two slashes is no
URL, and neither is one that holds a line feed. Each part takes as many characters as it can, and
a part that is absent is empty.
-/

set_option autoImplicit false

namespace SourceMap

/-- The parts of a URL. Those that are absent are empty. -/
structure Url where
  scheme : List Char := []
  auth : List Char := []
  host : List Char := []
  port : List Char := []
  path : List Char := []
deriving DecidableEq, Inhabited

namespace Url

/-! ## Characters of the parts -/

/-- Word characters, plus, minus and dot. -/
def isSchemeChar (c : Char) : Bool :=
  Text.isWord c || c == '+' || c == '-' || c == '.'

/-- Word characters, dot and minus. -/
def isHostChar (c : Char) : Bool :=
  Text.isWord c || c == '.' || c == '-'

/-! ## Splitting off one part

Each function returns a part and what follows it. -/

/-- The scheme, which ends before `://`. It is absent if the text starts with `//`. -/
def splitScheme? (cs : List Char) : Option (List Char × List Char) :=
  match cs.takeWhile isSchemeChar, cs.dropWhile isSchemeChar with
  | [], '/' :: '/' :: rest => some ([], rest)
  | scheme@(_ :: _), ':' :: '/' :: '/' :: rest => some (scheme, rest)
  | _, _ => none

/-- Two word texts with a colon between them and an `@` after them. -/
def splitAuth (cs : List Char) : List Char × List Char :=
  match cs.takeWhile Text.isWord, cs.dropWhile Text.isWord with
  | user@(_ :: _), ':' :: more =>
    match more.takeWhile Text.isWord, more.dropWhile Text.isWord with
    | word@(_ :: _), '@' :: rest => (user ++ ':' :: word, rest)
    | _, _ => ([], cs)
  | _, _ => ([], cs)

/-- A port, after its colon. -/
def splitPort (cs : List Char) : List Char × List Char :=
  match cs with
  | ':' :: more =>
    match more.takeWhile Text.isDecimal with
    | [] => ([], cs)
    | port@(_ :: _) => (port, more.dropWhile Text.isDecimal)
  | _ => ([], cs)

/-! ## Reading and writing -/

/-- The URL that a row of characters spells. -/
def ofChars? (cs : List Char) : Option Url :=
  if '\n' ∈ cs then none
  else match splitScheme? cs with
    | none => none
    | some (scheme, rest) =>
      let (auth, rest) := splitAuth rest
      let host := rest.takeWhile isHostChar
      let (port, path) := splitPort (rest.dropWhile isHostChar)
      some { scheme, auth, host, port, path }

/-- The spelling of a URL. -/
def toChars (u : Url) : List Char :=
  (if u.scheme.isEmpty then [] else u.scheme ++ [':']) ++
  ['/', '/'] ++
  (if u.auth.isEmpty then [] else u.auth ++ ['@']) ++
  u.host ++
  (if u.port.isEmpty then [] else ':' :: u.port) ++
  u.path

/-- The URL that a text spells. -/
def parse? (s : String) : Option Url :=
  ofChars? s.toList

/-- The text of a URL. -/
def text (u : Url) : String :=
  String.ofList u.toChars

end Url

end SourceMap

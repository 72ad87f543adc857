import SourceMap.Json.Numeral

/-!
# Tokens of JSON

A document is read character by character. A word, which spells a number or one of the three
constants, goes on as long as the characters are those of words, and the character after it is read
as the start of what comes next. A NUL may end a word too, and a long numeral is complete by itself;
what follows is then passed over up to the next delimiter.

Inside a string a character may be written by number, in 16-bit units, and one beyond 65535 takes
two of them. A first unit that no second one follows stands for NUL, and a second unit without a
first is an error.
-/

set_option autoImplicit false

namespace SourceMap.Json

/-- The smallest parts of a document. -/
inductive Token where
  | beginArray
  | endArray
  | beginObject
  | endObject
  | colon
  | comma
  | null
  | bool (b : Bool)
  | number (n : Number)
  | string (s : String)
deriving DecidableEq, Inhabited

/-! ## Strings -/

/-- The part of a string that has been read. Its characters are in reverse. -/
structure Partial where
  chars : List Char := []
  /-- A first unit that waits for its second. -/
  high : Option Nat := none
deriving DecidableEq

namespace Partial

/-- The characters, when no second unit follows. -/
def settled (p : Partial) : List Char :=
  match p.high with
  | none => p.chars
  | some _ => '\x00' :: p.chars

/-- Adds a character that is not written by number. -/
def push (p : Partial) (c : Char) : Partial :=
  { chars := c :: p.settled }

/-- The character of a first unit and the unit after it. -/
def pairedChar (high low : Nat) : Char :=
  Char.ofNat (0x10000 + ((high - 0xD800) * 0x400 ||| (low - 0xDC00)))

/-- Adds a unit that is written by number. -/
def pushUnit? (p : Partial) (u : Nat) : Option Partial :=
  match p.high with
  | some high => if u < 0xDC00 then none else some { chars := pairedChar high u :: p.chars }
  | none =>
    if u < 0xD800 ∨ 0xE000 ≤ u then some { chars := Char.ofNat u :: p.chars }
    else if u < 0xDC00 then some { p with high := some u }
    else none

/-- The string. -/
def finish (p : Partial) : String :=
  String.ofList p.settled.reverse

end Partial

/-- What a character after a backslash stands for. -/
def shortEscape? (c : Char) : Option Char :=
  if c = '"' ∨ c = '\\' ∨ c = '/' then some c
  else if c = 'b' then some '\x08'
  else if c = 'f' then some '\x0c'
  else if c = 'n' then some '\n'
  else if c = 'r' then some '\r'
  else if c = 't' then some '\t'
  else none

/-- The value of a hexadecimal digit, with a small or a capital letter. -/
def hexValue? (c : Char) : Option Nat :=
  if '0' ≤ c ∧ c ≤ '9' then some (c.toNat - 48)
  else if 'a' ≤ c ∧ c ≤ 'f' then some (c.toNat - 87)
  else if 'A' ≤ c ∧ c ≤ 'F' then some (c.toNat - 55)
  else none

/-! ## Reading -/

/-- Where in a token a reader is. The letters of a word are in reverse. -/
inductive Mode where
  | between
  | word (letters : List Char)
  /-- After a word, in what is passed over. A backslash that is not escaped itself escapes what
  comes after it. -/
  | passing (escaped : Bool)
  | inString (p : Partial)
  | escape (p : Partial)
  /-- Within `\u`, with the value so far and the number of digits that still have to come. -/
  | byNumber (p : Partial) (value missing : Nat)
deriving DecidableEq

/-- A reader in the middle of a document. The tokens it has read are in reverse. -/
structure Lexer where
  mode : Mode := .between
  tokens : List Token := []

namespace Lexer

/-- The characters that may stand between tokens. -/
def isBlank (c : Char) : Bool :=
  c == ' ' || c == '\t' || c == '\n' || c == '\r'

/-- The characters of numbers and constants, and those that must not follow one directly. -/
def isWordChar (c : Char) : Bool :=
  c.isAlphanum || c == '+' || c == '-' || c == '.'

/-- The characters that end what is passed over. -/
def isDelimiter (c : Char) : Bool :=
  isBlank c || ['[', ']', '\x7b', '\x7d', ':', ',', '"'].contains c

/-- The token that a word spells, and whether it is complete, whatever comes after it. -/
def wordToken? (letters : List Char) : Option (Token × Bool) :=
  if letters = ['n', 'u', 'l', 'l'] then some (.null, false)
  else if letters = ['t', 'r', 'u', 'e'] then some (.bool true, false)
  else if letters = ['f', 'a', 'l', 's', 'e'] then some (.bool false, false)
  else (Numeral.read? letters).bind fun (n, rest) =>
    if n.fits && (n.isLong || rest.isEmpty) then some (.number n.number, n.isLong) else none

/-- A reader that has read one more token. -/
def emit (l : Lexer) (t : Token) : Lexer :=
  { mode := .between, tokens := t :: l.tokens }

/-- Reads the first character of a token, or a blank. -/
def start (l : Lexer) (c : Char) : Option Lexer :=
  if isBlank c then some { l with mode := .between }
  else if c = '[' then some (l.emit .beginArray)
  else if c = ']' then some (l.emit .endArray)
  else if c = '\x7b' then some (l.emit .beginObject)
  else if c = '\x7d' then some (l.emit .endObject)
  else if c = ':' then some (l.emit .colon)
  else if c = ',' then some (l.emit .comma)
  else if c = '"' then some { l with mode := .inString {} }
  else if isWordChar c then some { l with mode := .word [c] }
  else none

/-- Reads a character of what is passed over, or the delimiter after it. -/
def pass (l : Lexer) (escaped : Bool) (c : Char) : Option Lexer :=
  if c = '\\' then some { l with mode := .passing (!escaped) }
  else if isDelimiter c && !(escaped && c == '"') then l.start c
  else some { l with mode := .passing false }

/-- Ends a word before the character `c`. -/
def endWord (l : Lexer) (letters : List Char) (c : Char) : Option Lexer :=
  (wordToken? letters).bind fun (t, isComplete) =>
    if isComplete || c == '\x00' then (l.emit t).pass false c else (l.emit t).start c

/-- Reads one character. -/
def step (l : Lexer) (c : Char) : Option Lexer :=
  match l.mode with
  | .between => l.start c
  | .word letters =>
    if isWordChar c then some { l with mode := .word (c :: letters) }
    else l.endWord letters.reverse c
  | .passing escaped => l.pass escaped c
  | .inString p =>
    if c = '"' then some (l.emit (.string p.finish))
    else if c = '\\' then some { l with mode := .escape p }
    else if c.toNat < 32 then none
    else some { l with mode := .inString (p.push c) }
  | .escape p =>
    if c = 'u' then some { l with mode := .byNumber p 0 4 }
    else (shortEscape? c).map fun e => { l with mode := .inString (p.push e) }
  | .byNumber p value missing =>
    (hexValue? c).bind fun d =>
      let value := 16 * value + d
      if missing ≤ 1 then (p.pushUnit? value).map fun p => { l with mode := .inString p }
      else some { l with mode := .byNumber p value (missing - 1) }

/-- The tokens that have been read, if the document may end here. A word ends there as it does
before a blank. -/
def finish? (l : Lexer) : Option (List Token) :=
  match l.mode with
  | .between | .passing _ => some l.tokens.reverse
  | .word letters => (l.endWord letters.reverse ' ').map (·.tokens.reverse)
  | _ => none

end Lexer

namespace Token

/-- The tokens of a document. -/
def scan? (cs : List Char) : Option (List Token) :=
  (cs.foldlM Lexer.step {}).bind Lexer.finish?

/-! ## Writing -/

/-- The character for a hexadecimal digit. -/
def hexChar (d : Nat) : Char :=
  if d < 10 then Char.ofNat (d + 48) else Char.ofNat (d + 87)

/-- A character inside a string. Quotes, backslashes and the characters below 32 are escaped. -/
def escaped (c : Char) : List Char :=
  if c = '"' then ['\\', '"']
  else if c = '\\' then ['\\', '\\']
  else if c = '\x08' then ['\\', 'b']
  else if c = '\t' then ['\\', 't']
  else if c = '\n' then ['\\', 'n']
  else if c = '\x0c' then ['\\', 'f']
  else if c = '\r' then ['\\', 'r']
  else if c.toNat < 32 then
    ['\\', 'u', '0', '0', hexChar (c.toNat / 16), hexChar (c.toNat % 16)]
  else [c]

/-- The spelling of a token. -/
def toChars : Token → List Char
  | beginArray => ['[']
  | endArray => [']']
  | beginObject => ['\x7b']
  | endObject => ['\x7d']
  | colon => [':']
  | comma => [',']
  | null => ['n', 'u', 'l', 'l']
  | bool true => ['t', 'r', 'u', 'e']
  | bool false => ['f', 'a', 'l', 's', 'e']
  | number n => n.toChars
  | string s => '"' :: (s.toList.flatMap escaped ++ ['"'])

end Token

end SourceMap.Json

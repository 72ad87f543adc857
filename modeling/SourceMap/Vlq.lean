import SourceMap.Error

/-!
# Base64 quantities of variable length

A signed number is spelled in groups of five bits, least significant group first, one base64 digit
a group. The lowest bit of the number that is spelled is the sign and the rest the magnitude. Every
digit but the last carries the continuation bit, worth 32. A quantity has at most thirteen digits
and a value of 64 bits.

`encode` and `decode` work on lists of characters; `decode` returns what follows the quantity.
-/

set_option autoImplicit false

namespace SourceMap.Vlq

/-! ## Digits -/

/-- The value of a base64 digit. -/
def digitValue? (c : Char) : Option Nat :=
  if 'A' ≤ c ∧ c ≤ 'Z' then some (c.toNat - 65)
  else if 'a' ≤ c ∧ c ≤ 'z' then some (c.toNat - 71)
  else if '0' ≤ c ∧ c ≤ '9' then some (c.toNat + 4)
  else if c = '+' then some 62
  else if c = '/' then some 63
  else none

/-- The base64 digit with a value below 64. -/
def digitChar (d : Nat) : Char :=
  if d < 26 then Char.ofNat (d + 65)
  else if d < 52 then Char.ofNat (d + 71)
  else if d < 62 then Char.ofNat (d - 4)
  else if d = 62 then '+'
  else '/'

/-- A digit has the value it was written for. -/
theorem digitValue?_digitChar {d : Nat} (h : d < 64) : digitValue? (digitChar d) = some d := by
  have all : ∀ e : Fin 64, digitValue? (digitChar e.val) = some e.val := by decide
  exact all ⟨d, h⟩

/-! ## Signs -/

/-- The number that spells a signed one: the sign in the lowest bit, then the magnitude. -/
def ofSigned (v : Int) : Nat :=
  2 * v.natAbs + (if v < 0 then 1 else 0)

/-- The signed number that a number spells. Zero has two spellings. -/
def toSigned (n : Nat) : Int :=
  if n % 2 = 1 then -((n / 2 : Nat) : Int) else ((n / 2 : Nat) : Int)

/-- Every signed number is spelled by the number made for it. -/
theorem toSigned_ofSigned (v : Int) : toSigned (ofSigned v) = v := by
  unfold toSigned ofSigned
  split <;> split at * <;> omega

/-- Whether a signed number has 64 bits. -/
def fits (v : Int) : Bool :=
  -9223372036854775808 ≤ v && v ≤ 9223372036854775807

/-! ## Writing -/

/-- The digits of a number, least significant first. -/
def encodeNat (n : Nat) : List Char :=
  if n < 32 then [digitChar n] else digitChar (n % 32 + 32) :: encodeNat (n / 32)

/-- The quantity that spells a signed number. -/
def encode (v : Int) : List Char :=
  encodeNat (ofSigned v)

/-! ## Reading -/

/-- Reads the digits of one number when at most `room` of them may still come, and returns the
number and what follows it. A character that is no digit counts before a digit too many. -/
def decodeNat : (room : Nat) → List Char → Except Error (Nat × List Char)
  | _, [] => .error .unterminatedQuantity
  | room, c :: rest =>
    match digitValue? c, room with
    | none, _ => .error (.invalidDigit c)
    | some _, 0 => .error .quantityOverflow
    | some d, room + 1 =>
      if d < 32 then .ok (d, rest)
      else match decodeNat room rest with
        | .error e => .error e
        | .ok (n, rest) => .ok (d - 32 + 32 * n, rest)

/-- The largest number of digits in a quantity. -/
def maxDigits : Nat := 13

/-- Reads one quantity, and returns its value and what follows it. -/
def decode (cs : List Char) : Except Error (Int × List Char) :=
  match decodeNat maxDigits cs with
  | .error e => .error e
  | .ok (n, rest) =>
    if fits (toSigned n) then .ok (toSigned n, rest) else .error .quantityOverflow

/-! ## Quantities inside a text

Places in a text are counted in bytes of its UTF-8 form. -/

/-- What is left of a text after its first `count` bytes, where `count` ends a character. -/
def dropBytes : (count : Nat) → List Char → List Char
  | 0, cs => cs
  | _ + 1, [] => []
  | count + 1, c :: cs => dropBytes (count + 1 - c.utf8Size) cs

/-- Reads the quantity that starts at byte `start` of a text, and returns its value and the byte
after it. -/
def decodeAt (text : String) (start : Nat) : Except Error (Int × Nat) :=
  let cs := dropBytes start text.toList
  match decode cs with
  | .error e => .error e
  | .ok (v, rest) => .ok (v, start + (cs.length - rest.length))

/-- A text with the quantities of some values written after it. -/
def appendAll (text : String) (values : List Int) : String :=
  text ++ String.ofList (values.flatMap encode)

end SourceMap.Vlq

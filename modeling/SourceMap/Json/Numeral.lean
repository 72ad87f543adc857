import SourceMap.Json.Estimate
import SourceMap.Json.Number

/-!
# Numerals

A numeral is the spelling of a number: a sign, digits before and after a point, and an exponent. A
long numeral is complete, whatever comes after it.

The numbers of a document have bounds: a whole number has at most 64 bits, with or without a sign,
and a decimal number is finite as a double. Where the exponent of a decimal number has more than
32 bits, it is enough that the numeral is not long and that with the last 32 of them the number can
be estimated.
-/

set_option autoImplicit false

namespace SourceMap.Json

/-- The parts of the spelling of a number. -/
structure Numeral where
  negative : Bool
  /-- The digits before the point, without a needless zero. -/
  before : List Char
  /-- The digits after the point, none of them if there is no point. -/
  after : List Char
  exponent : Option Int
deriving DecidableEq

namespace Numeral

/-! ## Reading -/

/-- The value of a row of decimal digits. -/
def digitsValue (cs : List Char) : Nat :=
  cs.foldl (fun n c => 10 * n + (c.toNat - 48)) 0

/-- The integer with a sign and a magnitude. -/
def signed (negative : Bool) (n : Nat) : Int :=
  if negative then -(n : Int) else n

/-- An optional minus sign and what follows it. -/
def splitSign : List Char → Bool × List Char
  | '-' :: cs => (true, cs)
  | cs => (false, cs)

/-- At least one digit, and what follows the digits. -/
def splitDigits? (cs : List Char) : Option (List Char × List Char) :=
  match cs.takeWhile Char.isDigit with
  | [] => none
  | digits => some (digits, cs.dropWhile Char.isDigit)

/-- The digits before the point, without a needless zero, and what follows them. -/
def splitWhole? (cs : List Char) : Option (List Char × List Char) :=
  (splitDigits? cs).bind fun (digits, rest) =>
    match digits with
    | '0' :: _ :: _ => none
    | _ => some (digits, rest)

/-- The digits after the point, if there is one, and what follows them. -/
def splitFraction? : List Char → Option (List Char × List Char)
  | '.' :: cs => splitDigits? cs
  | cs => some ([], cs)

/-- Above this value an exponent takes no further digit. -/
def fullExponent : Nat := Nat.pow 2 32

/-- The value of an exponent, with a plus or minus sign or without, and what follows it. -/
def splitExponentValue? (cs : List Char) : Option (Int × List Char) :=
  let (negative, cs) :=
    match cs with
    | '+' :: cs => (false, cs)
    | cs => splitSign cs
  (splitDigits? cs).bind fun (digits, rest) =>
    if fullExponent < digitsValue digits.dropLast then none
    else some (signed negative (digitsValue digits), rest)

/-- The exponent, if there is one, and what follows it. -/
def splitExponent? : List Char → Option (Option Int × List Char)
  | [] => some (none, [])
  | c :: cs =>
    if c = 'e' ∨ c = 'E' then
      (splitExponentValue? cs).map fun (exponent, rest) => (some exponent, rest)
    else some (none, c :: cs)

/-- The numeral at the start of a row of characters, and what follows it. -/
def read? (cs : List Char) : Option (Numeral × List Char) := do
  let (negative, cs) := splitSign cs
  let (before, cs) ← splitWhole? cs
  let (after, cs) ← splitFraction? cs
  let (exponent, rest) ← splitExponent? cs
  some ({ negative, before, after, exponent }, rest)

/-- The number that a numeral spells. -/
def number (n : Numeral) : Number :=
  let mantissa := signed n.negative (digitsValue (n.before ++ n.after))
  match n.exponent, n.after with
  | none, [] => .whole mantissa
  | none, after => .decimal mantissa (-after.length)
  | some exponent, after => .decimal mantissa (exponent - after.length)

/-! ## Length -/

/-- The sign and the digits of a numeral before its exponent. -/
def significand (n : Numeral) : List Char :=
  if n.negative then '-' :: (n.before ++ n.after) else n.before ++ n.after

/-- The number of characters in the significand. The zeros in front are left out, unless a sign
stands before them or nothing comes after them. -/
def significantLength (n : Numeral) : Nat :=
  match n.significand.dropWhile (· == '0') with
  | [] => n.significand.length
  | cs => cs.length

/-- Whether a numeral is a long one. The sign and the digits have to be 19 for a whole number, and
20 for a decimal one. -/
def isLong (n : Numeral) : Bool :=
  match n.number with
  | .whole _ => 19 ≤ n.significantLength
  | .decimal _ _ => 20 ≤ n.significantLength

/-! ## Bounds -/

/-- Half a unit above the largest finite double: what is not below it rounds to infinity. -/
def doubleLimit : Nat := Nat.pow 2 1024 - Nat.pow 2 970

/-- Whether `mantissa * 10 ^ exponent` rounds to a finite double. The number of digits settles the
question, except for numbers of 309 digits. -/
def isFinite (mantissa : Nat) (exponent : Int) : Bool :=
  let digits : Int := (Nat.toDigits 10 mantissa).length
  if mantissa = 0 ∨ digits + exponent < 309 then true
  else if 309 < digits + exponent then false
  else match exponent with
    | .ofNat k => mantissa * Nat.pow 10 k < doubleLimit
    | .negSucc k => mantissa < doubleLimit * Nat.pow 10 (k + 1)

/-- The value of the last 32 bits of an exponent, the first of which is the sign. -/
def shortExponent (exponent : Int) : Int :=
  exponent.bmod UInt32.size

/-- Whether the number of a numeral is within the bounds of a document. -/
def fits (n : Numeral) : Bool :=
  match n.number with
  | .whole m => -9223372036854775808 ≤ m && m ≤ 18446744073709551615
  | .decimal mantissa exponent =>
    isFinite mantissa.natAbs exponent ||
      !n.isLong && Estimate.isConclusive mantissa.natAbs (shortExponent exponent)

end Numeral

end SourceMap.Json

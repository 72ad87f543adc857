/-!
# Numbers of JSON

A number is whole if it is written with digits alone, and decimal if it has a fraction or an
exponent, whatever its value.
-/

set_option autoImplicit false

namespace SourceMap.Json

/-- A number as it is written. -/
inductive Number where
  | whole (n : Int)
  /-- The value `mantissa * 10 ^ exponent`. -/
  | decimal (mantissa exponent : Int)
deriving DecidableEq, Inhabited

namespace Number

/-- The digits of an integer, after a minus sign if it is negative. -/
def intChars (n : Int) : List Char :=
  if n < 0 then '-' :: Nat.toDigits 10 n.natAbs else Nat.toDigits 10 n.natAbs

/-- The spelling of a number. A decimal number is written with an exponent. -/
def toChars : Number → List Char
  | whole n => intChars n
  | decimal mantissa exponent => intChars mantissa ++ 'e' :: intChars exponent

end Number

end SourceMap.Json

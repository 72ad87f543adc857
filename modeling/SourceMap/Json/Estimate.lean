/-!
# Estimates of doubles

The double nearest to `m * 10 ^ e` can nearly always be told from the first bits of the product. An
estimate is conclusive if the bits that were cut off cannot change the double, and the double is a
normal one. Small products need no estimate, since they are the result of a single operation on
doubles.
-/

set_option autoImplicit false

namespace SourceMap.Json.Estimate

/-! ## Powers of ten -/

/-- The first bits of `10 ^ e` as a number `f` of that many bits, and the exponent `x` with which
`f * 2 ^ x` is `10 ^ e` when what is below the bits of `f` is cut off. -/
def powerOfTen (bits : Nat) : Int → Nat × Int
  | .ofNat k =>
    let length := (Nat.pow 10 k).log2 + 1
    (Nat.pow 10 k * Nat.pow 2 bits / Nat.pow 2 length, (length : Int) - bits)
  | .negSucc k =>
    let length := (Nat.pow 10 (k + 1)).log2
    (Nat.pow 2 (bits + length) / Nat.pow 10 (k + 1), -((bits : Int) + length))

/-! ## The product -/

/-- The number of values of a word. -/
def word : Nat := 18446744073709551616

/-- The first word of a product and the word after it, when `i` and the power are cut to words. -/
structure Product where
  upper : Nat
  lower : Nat

namespace Product

/-- Whether `i` more, in the last place, could reach the bits from which a double is made. -/
def isOpen (p : Product) (i : Nat) : Bool :=
  p.upper % 512 == 511 && word ≤ p.lower + i

/-- The product with one word of the power, or with two words of it if one leaves it open. It is
missing if it is open with two words as well. -/
def of? (i : Nat) (e : Int) : Option Product :=
  let short := i * (powerOfTen 64 e).1
  let p : Product := { upper := short / word, lower := short % word }
  if p.isOpen i then
    let long := i * (powerOfTen 128 e).1
    let p : Product := { upper := long / word / word, lower := long / word % word }
    if p.lower == word - 1 && p.upper % 512 == 511 && word ≤ long % word + i then none
    else some p
  else some p

/-- One if the first bit of the product is set. -/
def topBit (p : Product) : Nat :=
  p.upper / 9223372036854775808

/-- The first 54 bits of the product. -/
def mantissa (p : Product) : Nat :=
  p.upper / Nat.pow 2 (p.topBit + 9)

/-- Whether the product may lie halfway between two doubles, the lower of which is even. -/
def isHalfway (p : Product) : Bool :=
  p.lower == 0 && p.upper % 512 == 0 && p.mantissa % 4 == 1

/-- The exponent of the 53 bits that are left when the product is rounded, above that of its last
word but one. -/
def exponent (p : Product) : Nat :=
  p.topBit + 10 + (if p.mantissa = 18014398509481983 then 1 else 0)

end Product

/-! ## Conclusive estimates -/

/-- Whether 53 bits with a given exponent are a normal double. -/
def isNormal (exponent : Int) : Bool :=
  -1074 ≤ exponent && exponent ≤ 971

/-- Whether the double nearest to `m * 10 ^ e` is told by an estimate. There is none if `m` takes
more than a word. -/
def isConclusive (m : Nat) (e : Int) : Bool :=
  if word ≤ m then false
  else if m < 9007199254740992 ∧ -22 ≤ e ∧ e ≤ 22 then true
  else if e < -325 ∨ 308 < e then false
  else
    let shift := 63 - m.log2
    match Product.of? (m * Nat.pow 2 shift) e with
    | none => false
    | some p =>
      !p.isHalfway && isNormal ((powerOfTen 64 e).2 + 64 - shift + p.exponent)

end SourceMap.Json.Estimate

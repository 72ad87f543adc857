import Mathlib
import SourceMap.Json.Value

/-!
# The grammar of JSON

Which characters spell which value (`Value.SpelledBy`), without regard to how a text is read. There
may be blanks around every value and every key (`Padded`). A character of a string stands for itself
or is escaped, and one beyond 65535 that is written by number takes two units of 16 bits; half of
such a pair spells nothing. An object may repeat a key, and a value keeps all its fields in their
order.

Readers need not agree on numbers that are not whole or have more than 53 bits. A value without such
numbers is portable (`Value.Portable`).
-/

set_option autoImplicit false

namespace SourceMap.Json

/-! ## Blanks -/

/-- Whether characters are all blanks. -/
def Blank (cs : List Char) : Prop :=
  ∀ c ∈ cs, c ∈ [' ', '\t', '\n', '\r']

/-- Whether characters are of some kind, but for blanks around them. -/
def Padded (p : List Char → Prop) (cs : List Char) : Prop :=
  ∃ before text after, cs = before ++ text ++ after ∧ Blank before ∧ p text ∧ Blank after

theorem blank_nil : Blank [] := fun _ h => (List.not_mem_nil h).elim

theorem Padded.of {p : List Char → Prop} {cs : List Char} (h : p cs) : Padded p cs :=
  ⟨[], cs, [], by simp, blank_nil, h, blank_nil⟩

/-! ## Strings -/

/-- Whether a character is the hexadecimal digit of a value. -/
def IsHex (c : Char) (d : Nat) : Prop :=
  "0123456789abcdef".toList[d]? = some c ∨ "0123456789ABCDEF".toList[d]? = some c

/-- Whether characters are four hexadecimal digits of a value. -/
inductive SpellsUnit : List Char → Nat → Prop
  | digits {a b c d : Char} {k l m n : Nat} : IsHex a k → IsHex b l → IsHex c m → IsHex d n →
      SpellsUnit [a, b, c, d] (16 * (16 * (16 * k + l) + m) + n)

/-- The characters that may stand for others behind a backslash, with those others. -/
def shortEscapes : List (Char × Char) :=
  [('"', '"'), ('\\', '\\'), ('/', '/'), ('b', '\x08'), ('f', '\x0c'), ('n', '\n'), ('r', '\r'),
    ('t', '\t')]

/-- Whether characters stand for a character inside a string. -/
inductive SpellsChar : List Char → Char → Prop
  | self {c : Char} : c ≠ '"' → c ≠ '\\' → 32 ≤ c.toNat → SpellsChar [c] c
  | short {e c : Char} : (e, c) ∈ shortEscapes → SpellsChar ['\\', e] c
  | unit {cs : List Char} {u : Nat} : SpellsUnit cs u → u < 0xD800 ∨ 0xE000 ≤ u →
      SpellsChar ('\\' :: 'u' :: cs) (Char.ofNat u)
  | pair {cs ds : List Char} {high low : Nat} : SpellsUnit cs high → SpellsUnit ds low →
      0xD800 ≤ high → high < 0xDC00 → 0xDC00 ≤ low → low < 0xE000 →
      SpellsChar ('\\' :: 'u' :: cs ++ '\\' :: 'u' :: ds)
        (Char.ofNat (0x10000 + (high - 0xD800) * 0x400 + (low - 0xDC00)))

/-- Whether characters stand for others inside a string, one after the other. -/
inductive SpellsChars : List Char → List Char → Prop
  | nil : SpellsChars [] []
  | cons {text rest cs : List Char} {c : Char} : SpellsChar text c → SpellsChars rest cs →
      SpellsChars (text ++ rest) (c :: cs)

/-- Whether characters spell a string in quotes. -/
def SpellsString (cs : List Char) (s : String) : Prop :=
  ∃ inner, cs = '"' :: (inner ++ ['"']) ∧ SpellsChars inner s.toList

/-! ## Numbers -/

/-- Whether characters are decimal digits, at least one. -/
def IsDigits (ds : List Char) : Prop :=
  ds ≠ [] ∧ ∀ d ∈ ds, d.isDigit = true

/-- Whether characters are the digits of a whole number, with no needless zero in front. -/
def IsWhole (ds : List Char) : Prop :=
  IsDigits ds ∧ (ds.head? = some '0' → ds = ['0'])

/-- The value of decimal digits. -/
def valueOf (ds : List Char) : Nat :=
  Nat.ofDigitChars 10 ds 0

/-- A minus sign, or none. -/
def minus (negative : Bool) : List Char :=
  if negative then ['-'] else []

/-- The integer of a sign and a magnitude. -/
def withSign (negative : Bool) (n : Nat) : Int :=
  if negative then -n else n

/-- Whether characters are an exponent. -/
inductive SpellsExponent : List Char → Int → Prop
  | signed {e : Char} (negative : Bool) {ds : List Char} : e = 'e' ∨ e = 'E' → IsDigits ds →
      SpellsExponent (e :: (minus negative ++ ds)) (withSign negative (valueOf ds))
  | plus {e : Char} {ds : List Char} : e = 'e' ∨ e = 'E' → IsDigits ds →
      SpellsExponent (e :: '+' :: ds) (valueOf ds)

/-- Whether characters are digits behind a point, or nothing. -/
inductive SpellsFraction : List Char → List Char → Prop
  | none : SpellsFraction [] []
  | point {ds : List Char} : IsDigits ds → SpellsFraction ('.' :: ds) ds

/-- Whether characters spell a number. -/
inductive SpellsNumber : List Char → Number → Prop
  | whole (negative : Bool) {ds : List Char} : IsWhole ds →
      SpellsNumber (minus negative ++ ds) (.whole (withSign negative (valueOf ds)))
  | fraction (negative : Bool) {ds fs : List Char} : IsWhole ds → IsDigits fs →
      SpellsNumber (minus negative ++ ds ++ '.' :: fs)
        (.decimal (withSign negative (valueOf (ds ++ fs))) (-fs.length))
  | exponent (negative : Bool) {ds cs fs es : List Char} {e : Int} : IsWhole ds →
      SpellsFraction cs fs → SpellsExponent es e →
      SpellsNumber (minus negative ++ ds ++ cs ++ es)
        (.decimal (withSign negative (valueOf (ds ++ fs))) (e - fs.length))

/-! ## Values -/

namespace Value

/-- Whether characters are a key, a colon and what is of some kind. -/
def IsField (key : String) (p : List Char → Prop) (cs : List Char) : Prop :=
  ∃ name text, cs = name ++ ':' :: text ∧ Padded (SpellsString · key) name ∧ Padded p text

mutual

/-- Whether characters spell a value. -/
def SpelledBy : Value → List Char → Prop
  | .null, cs => cs = ['n', 'u', 'l', 'l']
  | .bool true, cs => cs = ['t', 'r', 'u', 'e']
  | .bool false, cs => cs = ['f', 'a', 'l', 's', 'e']
  | .number n, cs => SpellsNumber cs n
  | .string s, cs => SpellsString cs s
  | .array vs, cs => ∃ inner, cs = '[' :: (inner ++ [']']) ∧ ElementsSpelledBy vs inner
  | .object fields, cs => ∃ inner, cs = '\x7b' :: (inner ++ ['\x7d']) ∧ FieldsSpelledBy fields inner
  termination_by structural v => v

/-- Whether characters are the elements of an array, with commas between them. -/
def ElementsSpelledBy : List Value → List Char → Prop
  | [], cs => Blank cs
  | [v], cs => Padded v.SpelledBy cs
  | v :: w :: vs, cs => ∃ first rest, cs = first ++ ',' :: rest ∧ Padded v.SpelledBy first ∧
      ElementsSpelledBy (w :: vs) rest
  termination_by structural vs => vs

/-- Whether characters are the fields of an object, with commas between them. -/
def FieldsSpelledBy : List (String × Value) → List Char → Prop
  | [], cs => Blank cs
  | [(key, v)], cs => IsField key v.SpelledBy cs
  | (key, v) :: f :: fs, cs => ∃ first rest, cs = first ++ ',' :: rest ∧
      IsField key v.SpelledBy first ∧ FieldsSpelledBy (f :: fs) rest
  termination_by structural fields => fields

end

/-- Whether a text as a whole spells a value. -/
def DocumentSpelledBy (v : Value) (text : String) : Prop :=
  Padded v.SpelledBy text.toList

/-- Whether all numbers in a value are whole and of no more than 53 bits. -/
inductive Portable : Value → Prop
  | null : Portable .null
  | bool (b : Bool) : Portable (.bool b)
  | number {n : Int} : n.natAbs < 2 ^ 53 → Portable (.number (.whole n))
  | string (s : String) : Portable (.string s)
  | array {vs : List Value} : (∀ v ∈ vs, Portable v) → Portable (.array vs)
  | object {fields : List (String × Value)} : (∀ f ∈ fields, Portable f.2) →
      Portable (.object fields)

/-- What holds of the values without parts, and of arrays and objects if it holds of their parts,
holds of every value. -/
theorem induction {p : Value → Prop} (hnull : p .null) (hbool : ∀ b, p (.bool b))
    (hnumber : ∀ n, p (.number n)) (hstring : ∀ s, p (.string s))
    (harray : ∀ vs, (∀ v ∈ vs, p v) → p (.array vs))
    (hobject : ∀ fields, (∀ f ∈ fields, p f.2) → p (.object fields)) : ∀ v, p v
  | .null => hnull
  | .bool b => hbool b
  | .number n => hnumber n
  | .string s => hstring s
  | .array vs => harray vs fun v hv =>
      have : sizeOf v < 1 + sizeOf vs := by
        have hlt := List.sizeOf_lt_of_mem hv
        omega
      induction hnull hbool hnumber hstring harray hobject v
  | .object fields => hobject fields fun f hf =>
      have : sizeOf f.2 < 1 + sizeOf fields := by
        have hlt := List.sizeOf_lt_of_mem hf
        obtain ⟨key, v⟩ := f
        simp only [Prod.mk.sizeOf_spec] at hlt
        show sizeOf v < _
        omega
      induction hnull hbool hnumber hstring harray hobject f.2

end Value

end SourceMap.Json

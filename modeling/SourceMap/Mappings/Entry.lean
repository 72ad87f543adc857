import SourceMap.Position

/-!
# Entries

An entry is a mapping whose source and name are slots of string tables. Entries are kept in two
orders: by generated position, and by the place in the sources they come from. Neither order looks
at the last column of an entry, which is known only once the spans have been computed.
-/

set_option autoImplicit false

namespace SourceMap

/-! ## Places -/

/-- A position in the source with a given slot. -/
structure Place where
  source : Nat
  position : Position
deriving DecidableEq, Inhabited

namespace Place

/-- By source, then by position. -/
instance : Ord Place := ⟨compareLex (compareOn Place.source) (compareOn Place.position)⟩

instance : Std.TransOrd Place :=
  inferInstanceAs (Std.TransCmp (compareLex (compareOn Place.source) (compareOn Place.position)))

instance : Std.LawfulEqOrd Place where
  eq_of_compare {a b} h := by
    have h' : compareLex (compareOn Place.source) (compareOn Place.position) a b = .eq := h
    simp only [compareLex, compareOn, Ordering.then_eq_eq, Std.compare_eq_iff_eq] at h'
    cases a
    cases b
    simp_all

end Place

/-- A place, and the slot of the name the code has there. -/
structure Origin where
  place : Place
  name : Option Nat := none
deriving DecidableEq, Inhabited

/-! ## Entries -/

/-- A mapping by slots. Only an entry with a place can have a name. -/
structure Entry where
  generated : Position
  origin : Option Origin := none
  /-- The last column that the entry spans, once that is known. -/
  lastColumn : Option UInt32 := none
deriving DecidableEq, Inhabited

namespace Entry

/-- The place an entry comes from. -/
def place? (e : Entry) : Option Place :=
  e.origin.map Origin.place

/-- The slot of the name of an entry. -/
def name? (e : Entry) : Option Nat :=
  e.origin.bind Origin.name

/-- By generated position, then by place, then by name. What is absent comes first. -/
def generatedOrder : Entry → Entry → Ordering :=
  compareLex (compareOn Entry.generated)
    (compareLex (compareOn Entry.place?) (compareOn Entry.name?))

/-- By place, then by generated column, generated line and name. -/
def originalOrder : Entry → Entry → Ordering :=
  compareLex (compareOn Entry.place?)
    (compareLex (compareOn fun e => e.generated.column)
      (compareLex (compareOn fun e => e.generated.line) (compareOn Entry.name?)))

/-- Entries by generated position. -/
def sortGenerated (es : List Entry) : List Entry :=
  es.mergeSort fun a b => (generatedOrder a b).isLE

/-- The entries that have a place, by place. -/
def sortOriginal (es : List Entry) : List Entry :=
  (es.filter fun e => e.origin.isSome).mergeSort fun a b => (originalOrder a b).isLE

/-! ## Spans -/

/-- An entry with the span that ends before the next entry, or at the end of the line where no
entry follows on it. -/
def spanTo (e : Entry) (next : Option Entry) : Entry :=
  let last :=
    match next with
    | none => Coordinate.unbounded
    | some n =>
      if n.generated.line = e.generated.line then Coordinate.monus n.generated.column 1
      else Coordinate.unbounded
  { e with lastColumn := some last }

/-- Entries in generated order with their spans. -/
def withSpans (es : List Entry) : List Entry :=
  es.zipWith spanTo ((es.drop 1).map some ++ [none])

end Entry

end SourceMap

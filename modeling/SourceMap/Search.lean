/-!
# Binary search with a bias

`findIndex? key needle xs bias` looks for an element of `xs` with the key `needle`. Where there is
none, the bias says whether the neighbour below or the neighbour above the gap is taken. Of a run
of equal keys the first element is the answer.

The search halves the part of `xs` that is still open and looks at the last element of its first
half, so that it has an answer, and always the same one, for an array in any order.
-/

set_option autoImplicit false

namespace SourceMap

/-- Which neighbour stands in for a key that is missing. -/
inductive Bias where
  | greatestLowerBound
  | leastUpperBound
deriving DecidableEq, Inhabited

namespace Search

variable {α κ : Type} [Ord κ]

/-- Where a search ends: at an element with the wanted key, or in the gap before an index. -/
inductive Landing where
  | hit (index : Nat)
  | gap (index : Nat)
deriving DecidableEq

/-- Searches the elements of `xs` from `lo` up to and not including `hi`. -/
def locate (key : α → κ) (needle : κ) (xs : Array α) (lo hi : Nat) (bound : hi ≤ xs.size) :
    Landing :=
  if _open : lo < hi then
    let mid := lo + (hi - lo - 1) / 2
    match compare needle (key xs[mid]) with
    | .eq => .hit mid
    | .gt => locate key needle xs (mid + 1) hi bound
    | .lt => locate key needle xs lo mid (by omega)
  else
    .gap lo
termination_by hi - lo

/-- The element that a landing stands for: the one that was hit, or a neighbour of the gap. -/
def Landing.choose (landing : Landing) (size : Nat) : Bias → Option Nat
  | .greatestLowerBound =>
    match landing with
    | .hit i => some i
    | .gap 0 => none
    | .gap (i + 1) => some i
  | .leastUpperBound =>
    match landing with
    | .hit i => some i
    | .gap i => if i < size then some i else none

/-- Walks back from `i` over elements whose keys are equal to their predecessor's. -/
def firstOfRun (key : α → κ) (xs : Array α) : (i : Nat) → i < xs.size → Nat
  | 0, _ => 0
  | i + 1, bound =>
    if compare (key xs[i + 1]) (key xs[i]) = .eq then firstOfRun key xs i (by omega) else i + 1

/-- The index of the first element with the key `needle`, or else of the first element of the run
that the bias picks. -/
def findIndex? (key : α → κ) (needle : κ) (xs : Array α) (bias : Bias) : Option Nat :=
  match (locate key needle xs 0 xs.size (Nat.le_refl _)).choose xs.size bias with
  | none => none
  | some i => if bound : i < xs.size then some (firstOfRun key xs i bound) else none

end Search

end SourceMap

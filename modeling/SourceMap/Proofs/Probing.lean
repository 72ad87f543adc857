import Mathlib
import SourceMap.Proofs.Search

/-!
# Searches in arrays in any order

Nothing is known of the keys of an array that is not sorted, but a search still ends, reads no
element that is not there, and tells the index of a first element of its run
(`endsWell_findIndex?`). What it does not find is told by the two elements beside the gap where it
lands: it has looked at both (`locate_gap`).

A machine keeps two bounds with sign outside of the part that is still open, the lower one -1 at
first. `turn` is one turn of its loop, which crashes where it would read outside of the array. The
invariant is that the bounds are apart and at most one beyond the array (`Bounds.Open`), so that the
element between them is there.
-/

set_option autoImplicit false

namespace SourceMap.Search

variable {α κ : Type} [Ord κ]

/-! ## With bounds outside -/

/-- The indices before and behind the part of an array that is still open. -/
structure Bounds where
  low : Int
  high : Int

namespace Bounds

/-- The index in the middle, rounded towards zero from the lower bound. -/
def mid (b : Bounds) : Int := (b.high - b.low).tdiv 2 + b.low

/-- The bounds of a whole array. -/
def whole (xs : Array α) : Bounds where
  low := -1
  high := xs.size

variable {b : Bounds}

theorem mid_of_le (h : b.low ≤ b.high) : b.mid = (b.high - b.low) / 2 + b.low := by
  rw [mid, Int.tdiv_eq_ediv_of_nonneg (by omega)]

theorem mid_of_lt (h : b.high < b.low) : b.mid = b.low - (b.low - b.high) / 2 := by
  have hneg : b.high - b.low = -(b.low - b.high) := by omega
  rw [mid, hneg, Int.neg_tdiv, Int.tdiv_eq_ediv_of_nonneg (by omega)]
  omega

/-- Whether something is between bounds, and all of it is in an array. -/
structure Open (xs : Array α) (b : Bounds) : Prop where
  low : -1 ≤ b.low
  apart : b.low + 1 < b.high
  high : b.high ≤ xs.size

variable {xs : Array α}

theorem open_whole (h : xs.size ≠ 0) : (whole xs).Open xs where
  low := Int.le_refl _
  apart := by
    dsimp only [whole]
    omega
  high := Int.le_refl _

/-- **The middle is between the bounds.** -/
theorem Open.mid (h : b.Open xs) : b.low < b.mid ∧ b.mid < b.high := by
  have hapart := h.apart
  rw [mid_of_le (by omega)]
  omega

end Bounds

/-- What a turn of the loop comes to. -/
inductive Turn where
  | next (b : Bounds)
  | stop (index : Option Nat)
  | crash

/-- The element at an index, which must be one of the array. -/
def read? (xs : Array α) (i : Int) : Option α :=
  if i < 0 then none else xs[i.toNat]?

/-- One turn: the element in the middle decides which half stays open. If none is left, the bias
decides between the two elements beside the gap. -/
def turn (key : α → κ) (needle : κ) (xs : Array α) (bias : Bias) (b : Bounds) : Turn :=
  match read? xs b.mid with
  | none => .crash
  | some x =>
    match compare needle (key x) with
    | .eq => .stop (some b.mid.toNat)
    | .gt =>
      if 1 < b.high - b.mid then .next { b with low := b.mid }
      else match bias with
        | .leastUpperBound => .stop (if b.high < xs.size then some b.high.toNat else none)
        | .greatestLowerBound => .stop (some b.mid.toNat)
    | .lt =>
      if 1 < b.mid - b.low then .next { b with high := b.mid }
      else match bias with
        | .leastUpperBound => .stop (some b.mid.toNat)
        | .greatestLowerBound => .stop (if 0 ≤ b.low then some b.low.toNat else none)

variable {key : α → κ} {needle : κ} {xs : Array α} {bias : Bias}

/-- A turn that goes on does so in one half. -/
theorem turn_next {b b' : Bounds} (h : turn key needle xs bias b = .next b') :
    b' = { b with low := b.mid } ∧ 1 < b.high - b.mid ∨
      b' = { b with high := b.mid } ∧ 1 < b.mid - b.low := by
  unfold turn at h
  split at h
  · cases h
  split at h
  · cases h
  · split at h
    · rename_i hopen
      cases h
      exact Or.inl ⟨rfl, hopen⟩
    · cases bias <;> cases h
  · split at h
    · rename_i hopen
      cases h
      exact Or.inr ⟨rfl, hopen⟩
    · cases bias <;> cases h

/-- **Every turn that goes on narrows the bounds**, whatever they are. -/
theorem narrower_of_turn {b b' : Bounds} (h : turn key needle xs bias b = .next b') :
    (b'.high - b'.low).toNat < (b.high - b.low).toNat := by
  rcases Int.lt_or_le b.high b.low with hlt | hle
  · -- the middle of bounds the wrong way round is between them, which leaves no half to go on in
    have hmid := Bounds.mid_of_lt hlt
    rcases turn_next h with ⟨rfl, hopen⟩ | ⟨rfl, hopen⟩ <;> dsimp only <;> omega
  · have hmid := Bounds.mid_of_le hle
    rcases turn_next h with ⟨rfl, hopen⟩ | ⟨rfl, hopen⟩ <;> dsimp only <;> omega

/-- Turns until one does not go on; nothing, where one crashes. -/
def run (key : α → κ) (needle : κ) (xs : Array α) (bias : Bias) (b : Bounds) :
    Option (Option Nat) :=
  match _h : turn key needle xs bias b with
  | .next b' => run key needle xs bias b'
  | .stop index => some index
  | .crash => none
termination_by (b.high - b.low).toNat
decreasing_by exact narrower_of_turn _h

/-- The bounds at which the loop of a search takes a turn. -/
inductive Visits (key : α → κ) (needle : κ) (xs : Array α) (bias : Bias) : Bounds → Prop
  | start : xs.size ≠ 0 → Visits key needle xs bias (.whole xs)
  | next {b b' : Bounds} : Visits key needle xs bias b → turn key needle xs bias b = .next b' →
      Visits key needle xs bias b'

/-- What is open stays open. -/
theorem Bounds.Open.turn {b b' : Bounds} (h : b.Open xs)
    (hturn : turn key needle xs bias b = .next b') : b'.Open xs := by
  have hlow := h.low
  have hhigh := h.high
  obtain ⟨hbelow, habove⟩ := h.mid
  rcases turn_next hturn with ⟨rfl, hopen⟩ | ⟨rfl, hopen⟩
  · exact ⟨by dsimp only; omega, by dsimp only; omega, hhigh⟩
  · exact ⟨hlow, by dsimp only; omega, by dsimp only; omega⟩

/-- **The bounds are open at every turn.** -/
theorem Visits.isOpen {b : Bounds} (h : Visits key needle xs bias b) : b.Open xs := by
  induction h with
  | start hsize => exact Bounds.open_whole hsize
  | next _ hturn ih => exact ih.turn hturn

/-! ## What a search has seen -/

theorem run_of_next {b b' : Bounds} (h : turn key needle xs bias b = .next b') :
    run key needle xs bias b = run key needle xs bias b' := by
  rw [run]
  split <;> simp_all

theorem run_of_stop {b : Bounds} {index : Option Nat}
    (h : turn key needle xs bias b = .stop index) : run key needle xs bias b = some index := by
  rw [run]
  split <;> simp_all

theorem read?_natCast {i : Nat} (hi : i < xs.size) : read? xs i = some xs[i] := by
  rw [read?, if_neg (by omega), Int.toNat_natCast, Array.getElem?_eq_getElem hi]

section

variable {lo hi mid : Nat} (bias)

/-- The middle of the bounds is the last element of the first half of what is between them. -/
theorem Bounds.mid_eq (hopen : lo < hi) (hmid : mid = lo + (hi - lo - 1) / 2) :
    (⟨(lo : Int) - 1, hi⟩ : Bounds).mid = mid := by
  rw [mid_of_le (by dsimp only; omega)]
  dsimp only
  omega

/-- A turn that finds the needle stops at it. -/
theorem turn_eq (hopen : lo < hi) (hmid : mid = lo + (hi - lo - 1) / 2) (hsize : mid < xs.size)
    (heq : compare needle (key xs[mid]) = .eq) :
    turn key needle xs bias ⟨(lo : Int) - 1, hi⟩ = .stop (some mid) := by
  unfold turn
  simp only [Bounds.mid_eq hopen hmid, read?_natCast hsize, heq, Int.toNat_natCast]

/-- A turn below the needle goes on above the middle, or stops at the gap there. -/
theorem turn_gt (hopen : lo < hi) (hmid : mid = lo + (hi - lo - 1) / 2) (hsize : mid < xs.size)
    (hgt : compare needle (key xs[mid]) = .gt) :
    turn key needle xs bias ⟨(lo : Int) - 1, hi⟩ =
      if mid + 1 < hi then .next ⟨mid, hi⟩
      else .stop ((Landing.gap (mid + 1)).choose xs.size bias) := by
  unfold turn
  simp only [Bounds.mid_eq hopen hmid, read?_natCast hsize, hgt]
  by_cases hrest : mid + 1 < hi
  · rw [if_pos (by omega), if_pos hrest]
  · have hlast : mid + 1 = hi := by omega
    rw [if_neg (by omega), if_neg hrest]
    cases bias with
    | greatestLowerBound => rfl
    | leastUpperBound => simp only [Int.ofNat_lt, Int.toNat_natCast, Landing.choose, hlast]

/-- A turn above the needle goes on below the middle, or stops at the gap there. -/
theorem turn_lt (hopen : lo < hi) (hmid : mid = lo + (hi - lo - 1) / 2) (hsize : mid < xs.size)
    (hlt : compare needle (key xs[mid]) = .lt) :
    turn key needle xs bias ⟨(lo : Int) - 1, hi⟩ =
      if lo < mid then .next ⟨(lo : Int) - 1, mid⟩
      else .stop ((Landing.gap lo).choose xs.size bias) := by
  unfold turn
  simp only [Bounds.mid_eq hopen hmid, read?_natCast hsize, hlt]
  by_cases hrest : lo < mid
  · rw [if_pos (by omega), if_pos hrest]
  · have hfirst : mid = lo := by omega
    rw [if_neg (by omega), if_neg hrest]
    cases bias with
    | greatestLowerBound =>
        cases lo with
        | zero => rfl
        | succ lo =>
            have hlow : ((lo + 1 : Nat) : Int) - 1 = lo := by omega
            simp only [hlow, Int.natCast_nonneg, if_true, Int.toNat_natCast, Landing.choose]
    | leastUpperBound =>
        have hsize' : lo < xs.size := by omega
        simp only [hfirst, Int.toNat_natCast, Landing.choose, if_pos hsize']

theorem locate_closed (bound : hi ≤ xs.size) (hclosed : ¬ lo < hi) :
    locate key needle xs lo hi bound = .gap lo := by
  rw [locate, dif_neg hclosed]

end

/-- **Turn by turn the same part of the array stays open.** -/
theorem run_eq (lo hi : Nat) (bound : hi ≤ xs.size) (hopen : lo < hi) :
    run key needle xs bias ⟨(lo : Int) - 1, hi⟩ =
      some ((locate key needle xs lo hi bound).choose xs.size bias) := by
  fun_induction locate key needle xs lo hi bound with
  | case1 lo hi bound _ mid heq =>
      rw [run_of_stop (turn_eq bias hopen rfl (by omega) heq)]
      cases bias <;> rfl
  | case2 lo hi bound _ mid hgt ih =>
      have hturn := turn_gt bias hopen rfl (by omega) hgt
      by_cases hrest : mid + 1 < hi
      · have hrun := ih hrest
        rw [Int.natCast_add, Int.natCast_one, Int.add_sub_cancel] at hrun
        rw [if_pos hrest] at hturn
        rw [run_of_next hturn, hrun]
      · rw [if_neg hrest] at hturn
        rw [run_of_stop hturn, locate_closed bound hrest]
  | case3 lo hi bound _ mid hlt ih =>
      have hturn := turn_lt bias hopen rfl (by omega) hlt
      by_cases hrest : lo < mid
      · rw [if_pos hrest] at hturn
        rw [run_of_next hturn, ih hrest]
      · rw [if_neg hrest] at hturn
        rw [run_of_stop hturn, locate_closed _ hrest]
  | case4 lo hi bound hclosed => exact absurd hopen hclosed

end SourceMap.Search

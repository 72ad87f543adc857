import Mathlib
import SourceMap.Proofs.Nearest
import SourceMap.Proofs.Repetitions

/-!
# Views that differ in repetitions

What a search in a sorted array finds is not changed by repetitions (`getElem?_findIndex?_congr`).
Views whose tables differ in repetitions only are `Alike`, such as those of two lists with the same
entries (`MappingTable.alike_ofList`). They give the same answers, apart from repetitions in the
answers that are lists.
-/

set_option autoImplicit false

namespace SourceMap

/-! ## Searches -/

namespace Search

variable {α κ : Type} [Ord κ] [Std.TransOrd κ] {key : α → κ} {needle : κ}

/-- What is found in two arrays of the same elements has the same key. -/
theorem Finds.compare_eq {xs ys : Array α} {bias : Bias} {i k : Nat}
    (h : Finds key needle xs bias i) (h' : Finds key needle ys bias k)
    (hmem : ∀ x, x ∈ xs ↔ x ∈ ys) {x y : α} (hx : xs[i]? = some x) (hy : ys[k]? = some y) :
    compare (key x) (key y) = .eq := by
  have hbound := h.bound
  have hbound' := h'.bound
  obtain rfl : xs[i] = x := by simpa [hbound] using hx
  obtain rfl : ys[k] = y := by simpa [hbound'] using hy
  obtain ⟨j, hj, hji⟩ := Array.getElem_of_mem ((hmem _).mp (Array.getElem_mem hbound))
  obtain ⟨l, hl, hlk⟩ := Array.getElem_of_mem ((hmem _).mpr (Array.getElem_mem hbound'))
  -- each of the two is nearest in both arrays
  have hnear := h.nearest l hl (by rw [hlk]; exact h'.within)
  have hnear' := h'.nearest j hj (by rw [hji]; exact h.within)
  rw [hlk] at hnear
  rw [hji] at hnear'
  exact hnear.antisymm hnear'

/-- **Repetitions make no difference to what is found.** -/
theorem getElem?_findIndex?_congr [BEq α] [LawfulBEq α] {xs ys : Array α} (hxs : Sorted key xs)
    (hys : Sorted key ys) (h : xs.toList.eraseReps = ys.toList.eraseReps) (bias : Bias) :
    (findIndex? key needle xs bias).bind (xs[·]?) =
      (findIndex? key needle ys bias).bind (ys[·]?) := by
  have hmem (x : α) : x ∈ xs ↔ x ∈ ys := by
    rw [← Array.mem_toList_iff, ← Array.mem_toList_iff, ← mem_eraseReps, h, mem_eraseReps]
  cases hi : findIndex? key needle xs bias with
  | none =>
      have hnone : findIndex? key needle ys bias = none := by
        rw [findIndex?_eq_none_iff_of_mem hys]
        exact fun y hy => (findIndex?_eq_none_iff_of_mem hxs).mp hi y ((hmem y).mpr hy)
      rw [hnone]
      rfl
  | some i =>
      have hfinds := finds_of_findIndex? hxs hi
      have hbound := hfinds.bound
      have hx : xs[i]? = some xs[i] := Array.getElem?_eq_getElem hbound
      cases hk : findIndex? key needle ys bias with
      | none =>
          have hmem' : xs[i] ∈ ys := (hmem _).mp (Array.getElem_mem hbound)
          exact absurd hfinds.within ((findIndex?_eq_none_iff_of_mem hys).mp hk _ hmem')
      | some k =>
          have hfinds' := finds_of_findIndex? hys hk
          have hbound' := hfinds'.bound
          have hy : ys[k]? = some ys[k] := Array.getElem?_eq_getElem hbound'
          have hsame := hfinds.compare_eq hfinds' hmem hx hy
          have hkeys : (fun z => compare (key z) (key xs[i]) == .eq) =
              fun z => compare (key z) (key ys[k]) == .eq := by
            funext z
            rw [Std.TransCmp.congr_right hsame]
          have hfirst := hfinds.find?_eq hx
          rw [← find?_eraseReps, h, find?_eraseReps, hkeys, hfinds'.find?_eq hy] at hfirst
          rw [Option.bind_some, Option.bind_some, hx, hy, ← hfirst]

/-- What is not before the needle starts where a search for what is above it ends. -/
theorem drop_of_findIndex? {xs : Array α} (hsorted : Sorted key xs) {i : Nat}
    (h : findIndex? key needle xs .leastUpperBound = some i) :
    xs.toList.drop i = xs.toList.dropWhile fun x => compare (key x) needle == .lt := by
  have hfinds := finds_of_findIndex? hsorted h
  have hbound := hfinds.bound
  have hat : compare (key xs[i]) needle ≠ .lt := by
    have hwithin : (compare needle (key xs[i])).isLE := hfinds.within
    intro hlt
    rw [Std.OrientedCmp.gt_of_lt hlt] at hwithin
    cases hwithin
  have hbefore : ∀ x ∈ xs.toList.take i, (compare (key x) needle == .lt) = true := by
    intro x hx
    obtain ⟨j, hj, rfl⟩ := List.getElem_of_mem hx
    simp only [List.length_take, Array.length_toList] at hj
    have hlt := hfinds.first j (by omega)
    simp only [List.getElem_take, Array.getElem_toList, beq_iff_eq]
    by_contra hnot
    -- an element above the needle is not before the first of them
    have hwithin : (compare needle (key xs[j])).isLE := by
      cases hcompare : compare needle (key xs[j]) with
      | lt => rfl
      | eq => rfl
      | gt => exact absurd (Std.OrientedCmp.lt_of_gt hcompare) hnot
    have hnear : (compare (key xs[i]) (key xs[j])).isLE := hfinds.nearest j (by omega) hwithin
    rw [Std.OrientedCmp.gt_of_lt hlt] at hnear
    cases hnear
  conv_rhs => rw [← List.take_append_drop i xs.toList]
  rw [List.dropWhile_append_of_pos hbefore,
    List.drop_eq_getElem_cons (by simpa using hbound), List.dropWhile_cons_of_neg]
  simpa using hat

end Search

/-! ## Tables -/

namespace MappingTable

/-- Whether two tables have the same entries in both of their orders, apart from repetitions. -/
structure Alike (t u : MappingTable) : Prop where
  generated : t.generated.toList.eraseReps = u.generated.toList.eraseReps
  original : t.original.toList.eraseReps = u.original.toList.eraseReps

/-- **Tables of the same entries without spans are alike.** -/
theorem alike_ofList {es fs : List Entry} (hmem : ∀ e, e ∈ es ↔ e ∈ fs)
    (hlast : ∀ e ∈ es, e.lastColumn = none) : (ofList es).Alike (ofList fs) := by
  have hgenerated (e : Entry) : e ∈ Entry.sortGenerated es ↔ e ∈ Entry.sortGenerated fs := by
    rw [(Entry.perm_sortGenerated es).mem_iff, (Entry.perm_sortGenerated fs).mem_iff, hmem]
  have hmem_original (gs : List Entry) (e : Entry) :
      e ∈ Entry.sortOriginal gs ↔ e ∈ gs ∧ e.origin.isSome := by
    rw [(Entry.perm_sortOriginal gs).mem_iff, List.mem_filter]
  have hsame {a b : Entry} (ha : a ∈ Entry.sortGenerated es) (hb : b ∈ Entry.sortGenerated es) :
      a.lastColumn = b.lastColumn := by
    rw [hlast a ((Entry.perm_sortGenerated es).mem_iff.mp ha),
      hlast b ((Entry.perm_sortGenerated es).mem_iff.mp hb)]
  constructor
  · show (Entry.sortGenerated es).eraseReps = (Entry.sortGenerated fs).eraseReps
    refine eraseReps_eq_of_pairwise ?_ (pairwise_mergeSort_isLE Entry.generatedOrder es)
      (pairwise_mergeSort_isLE Entry.generatedOrder fs) hgenerated
    intro a ha b hb hab hba
    exact Entry.eq_of_generatedOrder (Std.OrientedCmp.isLE_antisymm hab hba) (hsame ha hb)
  · show (Entry.sortOriginal (Entry.sortGenerated es)).eraseReps =
      (Entry.sortOriginal (Entry.sortGenerated fs)).eraseReps
    refine eraseReps_eq_of_pairwise ?_ (pairwise_mergeSort_isLE Entry.originalOrder _)
      (pairwise_mergeSort_isLE Entry.originalOrder _) ?_
    · intro a ha b hb hab hba
      rw [hmem_original] at ha hb
      exact Entry.eq_of_originalOrder (Std.OrientedCmp.isLE_antisymm hab hba) (hsame ha.1 hb.1)
    · intro e
      rw [hmem_original, hmem_original, hgenerated]

end MappingTable

/-! ## Views -/

namespace View

/-- Whether two views have tables that are alike, and the same strings in their slots. -/
structure Alike (v w : View) : Prop where
  table : v.table.Alike w.table
  sources : v.sources.toList = w.sources.toList
  names : v.names.toList = w.names.toList
  root : v.root = w.root

variable {v w : View}

theorem Alike.mapping_eq (h : v.Alike w) : v.mapping = w.mapping :=
  funext (mapping_congr h.sources h.names h.root)

theorem Alike.sourceSlot?_eq (h : v.Alike w) (source : String) :
    v.sourceSlot? source = w.sourceSlot? source := by
  show v.sources.indexOf? _ = w.sources.indexOf? _
  rw [StringTable.indexOf?_eq, StringTable.indexOf?_eq, h.root]
  exact congrArg _ h.sources

/-- **Alike views list the same mappings**, apart from repetitions. -/
theorem Alike.mappings_eq (h : v.Alike w) (order : Order) :
    (v.mappings order).eraseReps = (w.mappings order).eraseReps := by
  cases order with
  | generated =>
      show (v.table.generated.toList.map v.mapping).eraseReps = _
      rw [← eraseReps_map, h.table.generated, h.mapping_eq, eraseReps_map]
      rfl
  | original =>
      show (v.table.original.toList.map v.mapping).eraseReps = _
      rw [← eraseReps_map, h.table.original, h.mapping_eq, eraseReps_map]
      rfl

/-- **Alike views say the same of a generated position.** -/
theorem Alike.originalPositionFor_eq (h : v.Alike w) (hv : v.table.InOrder)
    (hw : w.table.InOrder) (p : Position) (bias : Bias) :
    v.originalPositionFor p bias = w.originalPositionFor p bias := by
  have hfind : v.table.findGenerated? p bias = w.table.findGenerated? p bias :=
    Search.getElem?_findIndex?_congr (Search.sorted_of_pairwise Entry.generated hv)
      (Search.sorted_of_pairwise Entry.generated hw) h.table.generated bias
  rw [View.originalPositionFor_eq, View.originalPositionFor_eq, hfind, h.mapping_eq]

/-- The entry in original order that a search for a place leads to. -/
theorem Alike.findOriginal?_eq (h : v.Alike w) (place : Place) (bias : Bias) :
    (v.table.findOriginal? place bias).bind (v.table.original[·]?) =
      (w.table.findOriginal? place bias).bind (w.table.original[·]?) :=
  Search.getElem?_findIndex?_congr v.table.sorted_original w.table.sorted_original
    h.table.original bias

/-- **Alike views say the same of an original position.** -/
theorem Alike.generatedPositionFor_eq (h : v.Alike w) (source : String) (p : Position)
    (bias : Bias) :
    v.generatedPositionFor source p bias = w.generatedPositionFor source p bias := by
  simp only [generatedPositionFor, h.sourceSlot?_eq, h.findOriginal?_eq]

/-- All places are those of the entries that come next, from the one that a search leads to. -/
theorem allGeneratedPositionsFor_eq (v : View) (source : String) (line : UInt32)
    (column : Option UInt32) : v.allGeneratedPositionsFor source line column =
      match v.sourceSlot? source with
      | none => []
      | some slot =>
        let place : Place := { source := slot, position := { line, column := column.getD 0 } }
        match ((v.table.findOriginal? place .leastUpperBound).bind
            (v.table.original[·]?)).bind Entry.place? with
        | none => []
        | some found =>
          if found.source = slot then
            (((v.table.original.toList.dropWhile fun e =>
                compare e.place? (some place) == .lt).takeWhile <|
              match column with
              | none => comesFrom slot found.position.line none
              | some _ => comesFrom slot line (some found.position.column)).map positionOf)
          else [] := by
  unfold allGeneratedPositionsFor
  cases v.sourceSlot? source with
  | none => rfl
  | some slot =>
      dsimp only
      cases hfind : v.table.findOriginal? ⟨slot, ⟨line, column.getD 0⟩⟩ .leastUpperBound with
      | none => rfl
      | some start =>
          have hdrop := Search.drop_of_findIndex? v.table.sorted_original hfind
          rw [← hdrop]
          rfl

/-- **Alike views give the same places for a line**, apart from repetitions. -/
theorem Alike.allGeneratedPositionsFor_eq (h : v.Alike w) (source : String) (line : UInt32)
    (column : Option UInt32) :
    (v.allGeneratedPositionsFor source line column).eraseReps =
      (w.allGeneratedPositionsFor source line column).eraseReps := by
  rw [View.allGeneratedPositionsFor_eq, View.allGeneratedPositionsFor_eq, h.sourceSlot?_eq]
  cases w.sourceSlot? source with
  | none => rfl
  | some slot =>
      dsimp only
      rw [h.findOriginal?_eq]
      generalize ((w.table.findOriginal? _ _).bind _).bind Entry.place? = found
      cases found with
      | none => rfl
      | some found =>
          dsimp only
          by_cases hsource : found.source = slot
          · -- repetitions can be left out before the places are taken
            rw [if_pos hsource, if_pos hsource, ← eraseReps_map, eraseReps_takeWhile,
              eraseReps_dropWhile, h.table.original, ← eraseReps_dropWhile, ← eraseReps_takeWhile,
              eraseReps_map]
          · rw [if_neg hsource, if_neg hsource]

end View

end SourceMap

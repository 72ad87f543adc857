import Mathlib
import SourceMap.Mappings.View
import SourceMap.MappingLog

/-!
# Sorted tables

Sorting keeps the entries of a table and puts them in order. Which generated positions a table has,
one after the other, does not depend on the rest of its entries (`map_generated_sortGenerated`).
-/

set_option autoImplicit false

namespace SourceMap

/-! ## Sorting by a comparison -/

section

variable {α : Type} (cmp : α → α → Ordering) [Std.TransCmp cmp]

theorem isLE_or_isLE (a b : α) : ((cmp a b).isLE || (cmp b a).isLE) = true := by
  have hswap : cmp b a = (cmp a b).swap := Std.OrientedCmp.eq_swap
  rw [hswap]
  cases cmp a b <;> rfl

/-- Sorting by a comparison puts a list in its order. -/
theorem pairwise_mergeSort_isLE (l : List α) :
    (l.mergeSort fun a b => (cmp a b).isLE).Pairwise fun a b => (cmp a b).isLE :=
  List.pairwise_mergeSort (fun _ _ _ => Std.TransCmp.isLE_trans) (isLE_or_isLE cmp) l

/-- There is one way only to put elements in order, where equal ones are the same. -/
theorem eq_of_perm_of_pairwise_isLE [Std.LawfulEqCmp cmp] {as bs : List α} (h : as.Perm bs)
    (has : as.Pairwise fun a b => (cmp a b).isLE) (hbs : bs.Pairwise fun a b => (cmp a b).isLE) :
    as = bs := by
  refine List.Perm.eq_of_pairwise ?_ has hbs h
  intro a b _ _ hab hba
  exact Std.LawfulEqCmp.eq_of_compare (Std.OrientedCmp.isLE_antisymm hab hba)

/-- Sorting leaves elements that are all equal where they are among each other. -/
theorem filter_mergeSort_isLE {q : α → Bool} (hq : ∀ a b, q a → q b → (cmp a b).isLE)
    (l : List α) : (l.mergeSort fun a b => (cmp a b).isLE).filter q = l.filter q := by
  have hpairwise : (l.filter q).Pairwise fun a b => (cmp a b).isLE := by
    refine List.pairwise_of_forall_mem_list fun a ha b hb => ?_
    exact hq a b (List.mem_filter.mp ha).2 (List.mem_filter.mp hb).2
  have hsub := (List.sublist_mergeSort (fun _ _ _ => Std.TransCmp.isLE_trans) (isLE_or_isLE cmp)
    hpairwise (List.filter_sublist (p := q))).filter q
  simp only [List.filter_filter, Bool.and_self] at hsub
  exact (hsub.eq_of_length ((List.mergeSort_perm l _).filter q).length_eq.symm).symm

end

/-- What comes first in an order by two parts comes first by the first of them. -/
theorem isLE_of_compareLex {α : Type} {first second : α → α → Ordering} {a b : α}
    (h : (compareLex first second a b).isLE = true) : (first a b).isLE = true := by
  unfold compareLex at h
  exact Ordering.isLE_left_of_isLE_then h

/-! ## Entries -/

namespace Entry

open scoped List

instance : Std.TransCmp generatedOrder :=
  inferInstanceAs (Std.TransCmp (compareLex (compareOn Entry.generated)
    (compareLex (compareOn Entry.place?) (compareOn Entry.name?))))

instance : Std.TransCmp originalOrder :=
  inferInstanceAs (Std.TransCmp (compareLex (compareOn Entry.place?)
    (compareLex (compareOn fun e => e.generated.column)
      (compareLex (compareOn fun e => e.generated.line) (compareOn Entry.name?)))))

theorem perm_sortGenerated (es : List Entry) : (sortGenerated es).Perm es :=
  List.mergeSort_perm _ _

theorem perm_sortOriginal (es : List Entry) :
    (sortOriginal es).Perm (es.filter fun e => e.origin.isSome) :=
  List.mergeSort_perm _ _

/-- Entries in generated order are in the order of their generated positions. -/
theorem pairwise_sortGenerated (es : List Entry) :
    (sortGenerated es).Pairwise fun a b => (compare a.generated b.generated).isLE :=
  (pairwise_mergeSort_isLE generatedOrder es).imp isLE_of_compareLex

/-- **The generated positions of sorted entries do not depend on what else the entries have.** -/
theorem map_generated_sortGenerated {es fs : List Entry}
    (h : (es.map Entry.generated).Perm (fs.map Entry.generated)) :
    (sortGenerated es).map Entry.generated = (sortGenerated fs).map Entry.generated := by
  have hsorted (gs : List Entry) :
      ((sortGenerated gs).map Entry.generated).Pairwise fun p q => (compare p q).isLE :=
    List.pairwise_map.mpr (pairwise_sortGenerated gs)
  have hperm : (sortGenerated es).map Entry.generated ~ (sortGenerated fs).map Entry.generated :=
    calc (sortGenerated es).map Entry.generated
      _ ~ es.map Entry.generated := (perm_sortGenerated es).map _
      _ ~ fs.map Entry.generated := h
      _ ~ (sortGenerated fs).map Entry.generated := ((perm_sortGenerated fs).map _).symm
  exact eq_of_perm_of_pairwise_isLE compare hperm (hsorted es) (hsorted fs)

/-- An entry is made of the parts that the orders look at, and its last column. -/
theorem eq_of_parts {a b : Entry} (hgenerated : a.generated = b.generated)
    (hplace : a.place? = b.place?) (hname : a.name? = b.name?)
    (hlast : a.lastColumn = b.lastColumn) : a = b := by
  obtain ⟨generated, _ | ⟨place, name⟩, last⟩ := a <;>
    obtain ⟨generated', _ | ⟨place', name'⟩, last'⟩ := b <;>
    simp_all [place?, name?]

/-- Entries that come at one point of generated order differ in their spans only. -/
theorem eq_of_generatedOrder {a b : Entry} (h : generatedOrder a b = .eq)
    (hlast : a.lastColumn = b.lastColumn) : a = b := by
  simp only [generatedOrder, compareLex, compareOn, Ordering.then_eq_eq,
    Std.compare_eq_iff_eq] at h
  exact eq_of_parts h.1 h.2.1 h.2.2 hlast

/-- Entries that come at one point of original order differ in their spans only. -/
theorem eq_of_originalOrder {a b : Entry} (h : originalOrder a b = .eq)
    (hlast : a.lastColumn = b.lastColumn) : a = b := by
  simp only [originalOrder, compareLex, compareOn, Ordering.then_eq_eq,
    Std.compare_eq_iff_eq] at h
  have hgenerated : a.generated = b.generated := by
    cases hposition : a.generated
    cases hposition' : b.generated
    simp_all
  exact eq_of_parts hgenerated h.1 h.2.2.2 hlast

end Entry

/-! ## Mappings -/

theorem Mapping.perm_sort (ms : List Mapping) : (Mapping.sort ms).Perm ms :=
  List.mergeSort_perm _ _

/-- Whether the generated positions of mappings are in order. -/
def Mapping.InOrder (ms : List Mapping) : Prop :=
  ms.Pairwise fun a b => (compare a.generated b.generated).isLE = true

/-- Whether mappings are in order can be seen from their positions alone. -/
theorem Mapping.inOrder_iff {ms : List Mapping} :
    InOrder ms ↔ (ms.map Mapping.generated).Pairwise fun p q => (compare p q).isLE = true := by
  rw [List.pairwise_map]
  rfl

theorem Mapping.pairwise_sort (ms : List Mapping) :
    (Mapping.sort ms).Pairwise fun a b => (compare a b).isLE = true :=
  pairwise_mergeSort_isLE (compare : Mapping → Mapping → Ordering) ms

theorem Mapping.inOrder_sort (ms : List Mapping) : InOrder (Mapping.sort ms) :=
  (pairwise_sort ms).imp isLE_of_compareLex

/-! ## Tables and views -/

/-- Whether the entries of a table are in the order of their generated positions. -/
def MappingTable.InOrder (t : MappingTable) : Prop :=
  t.generated.toList.Pairwise fun a b => (compare a.generated b.generated).isLE

theorem MappingTable.inOrder_ofList (es : List Entry) : (ofList es).InOrder :=
  Entry.pairwise_sortGenerated es

theorem MappingTable.perm_original (t : MappingTable) :
    t.original.toList.Perm (t.generated.toList.filter fun e => e.origin.isSome) := by
  rw [t.original_eq]
  exact Entry.perm_sortOriginal _

theorem MappingTable.pairwise_original (t : MappingTable) :
    t.original.toList.Pairwise fun a b => (Entry.originalOrder a b).isLE := by
  rw [t.original_eq]
  exact pairwise_mergeSort_isLE Entry.originalOrder _

end SourceMap

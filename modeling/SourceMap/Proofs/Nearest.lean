import Mathlib
import SourceMap.Proofs.FlatMap
import SourceMap.Proofs.Search
import SourceMap.Proofs.View

/-!
# Nearest places

Among elements that are sorted by key and then by tie a search finds the least of those with the
nearest key (`Search.findIndex?_cases`). A view answers a query for an original position with an
entry of the asked source that is nearest to the position on the side of the bias, and with nothing
if there is no entry on that side (`View.answersSource`). The search runs through the entries of all
sources, and what lies between two places in one source is in this source.

An entry at the very position is among all that are found there (`mem_allGeneratedPositionsFor`).
The same holds of the mappings of a source that is looked up in its own slot (`exists_nearest`,
`exists_exact`, `exists_allGeneratedPositionsFor`).
-/

set_option autoImplicit false

namespace SourceMap

open Search (Within)

/-! ## Searches with ties -/

namespace Search

variable {α κ : Type} [Ord κ] [Std.TransOrd κ] {key : α → κ} {tie : α → α → Ordering} {needle : κ}
  {bias : Bias}

/-- What is found is the first element with its key. -/
theorem Finds.find?_eq {xs : Array α} {i : Nat} (h : Finds key needle xs bias i) {x : α}
    (hx : xs[i]? = some x) :
    xs.toList.find? (fun y => compare (key y) (key x) == .eq) = some x := by
  obtain ⟨hbound, rfl⟩ := Array.getElem?_eq_some_iff.mp hx
  rw [List.find?_eq_bind_findIdx?_getElem?, h.findIdx?_eq hbound, Option.bind_some,
    Array.getElem?_toList, hx]

/-- Whether an element of a list has the nearest key to the needle on the side of the bias, is the
least of those with this key, and is the first of its equals. -/
structure FirstNearest (key : α → κ) (tie : α → α → Ordering) (needle : κ) (bias : Bias)
    (xs : List α) (x : α) : Prop where
  mem : x ∈ xs
  within : Within needle bias (key x)
  nearest : ∀ y ∈ xs, Within needle bias (key y) → Within (key x) bias (key y)
  least : ∀ y ∈ xs, compare (key y) (key x) = .eq → (tie x y).isLE
  first : xs.find? (fun y => compareLex (compareOn key) tie y x == .eq) = some x

omit [Std.TransOrd κ] in
/-- In an order by key and then by tie, elements with one key are ordered by tie. -/
theorem compareLex_of_eq {x y : α} (h : compare (key x) (key y) = .eq) :
    compareLex (compareOn key) tie x y = tie x y := by
  rw [compareLex, compareOn, h]
  rfl

/-- What is found in an array that is sorted by key and then by tie. -/
theorem Finds.firstNearest [Std.ReflCmp tie] {xs : Array α}
    (hsorted : xs.toList.Pairwise fun a b => (compareLex (compareOn key) tie a b).isLE) {i : Nat}
    (h : Finds key needle xs bias i) {x : α} (hx : xs[i]? = some x) :
    FirstNearest key tie needle bias xs.toList x := by
  have hfind := h.find?_eq hx
  have hself : tie x x = .eq := Std.ReflCmp.compare_self
  have hkey : compare (key x) (key x) = .eq := Std.ReflCmp.compare_self
  obtain ⟨hbound, rfl⟩ := Array.getElem?_eq_some_iff.mp hx
  refine ⟨Array.getElem_mem_toList hbound, h.within, ?_, ?_, ?_⟩
  · intro y hy hwithin
    obtain ⟨j, hj, rfl⟩ := Array.getElem_of_mem (Array.mem_toList_iff.mp hy)
    exact h.nearest j hj hwithin
  · intro y hy hsame
    obtain ⟨j, hj, rfl⟩ := Array.getElem_of_mem (Array.mem_toList_iff.mp hy)
    rcases Nat.lt_trichotomy j i with hlt | rfl | hgt
    · -- before what is found no element has its key
      have hfirst := h.first j hlt
      rw [hsame] at hfirst
      cases hfirst
    · rw [hself]
      rfl
    · have hpair : (compareLex (compareOn key) tie xs[i] xs[j]).isLE :=
        List.pairwise_iff_getElem.mp hsorted i j hbound hj hgt
      rwa [compareLex_of_eq (Std.OrientedCmp.eq_symm hsame)] at hpair
  · obtain ⟨-, before, after, hsplit, hbefore⟩ := List.find?_eq_some_iff_append.mp hfind
    refine List.find?_eq_some_iff_append.mpr ⟨?_, before, after, hsplit, ?_⟩
    · rw [compareLex_of_eq hkey, hself]
      rfl
    · intro y hy
      have hne := hbefore y hy
      rw [Bool.not_eq_true', beq_eq_false_iff_ne] at hne ⊢
      exact fun heq => hne (Ordering.then_eq_eq.mp heq).1

/-- **A search in an array that is sorted by key and then by tie** finds the least of the nearest
elements, or there is none on the side of the bias. -/
theorem findIndex?_cases [Std.ReflCmp tie] {xs : Array α}
    (hsorted : xs.toList.Pairwise fun a b => (compareLex (compareOn key) tie a b).isLE)
    (needle : κ) (bias : Bias) :
    ((findIndex? key needle xs bias).bind (xs[·]?) = none ∧
      ∀ y ∈ xs.toList, ¬ Within needle bias (key y)) ∨
    ∃ x, (findIndex? key needle xs bias).bind (xs[·]?) = some x ∧
      FirstNearest key tie needle bias xs.toList x := by
  have hkeys : Sorted key xs := sorted_of_pairwise key (hsorted.imp isLE_of_compareLex)
  cases hi : findIndex? key needle xs bias with
  | none =>
      refine Or.inl ⟨rfl, fun y hy => ?_⟩
      exact (findIndex?_eq_none_iff_of_mem hkeys).mp hi y (Array.mem_toList_iff.mp hy)
  | some i =>
      have hfinds := finds_of_findIndex? hkeys hi
      have hget := Array.getElem?_eq_getElem hfinds.bound
      exact Or.inr ⟨_, hget, hfinds.firstNearest hsorted hget⟩

end Search

/-! ## Order of places -/

/-- Places in one source are ordered by their positions. -/
theorem Place.within_iff {slot : Nat} {p q : Position} {bias : Bias} :
    Within (some (Place.mk slot p)) bias (some (Place.mk slot q)) ↔ Within p bias q := by
  have hcompare (a b : Position) :
      compare (some (Place.mk slot a)) (some (Place.mk slot b)) = compare a b := by
    show (compare slot slot).then (compare a b) = compare a b
    rw [Std.ReflOrd.compare_self]
    rfl
  cases bias <;> simp only [Within, hcompare]

/-- What lies between two places in one source is in that source. -/
theorem Place.source_eq_of_within {a b c : Place} {bias : Bias}
    (hab : Within (some a) bias (some b)) (hbc : Within (some b) bias (some c))
    (hac : a.source = c.source) : b.source = a.source := by
  have hsource {x y : Place} (h : (compare (some x) (some y)).isLE) : x.source ≤ y.source := by
    have h' : (compareLex (compareOn Place.source) (compareOn Place.position) x y).isLE := h
    have hle : (compareOn Place.source x y).isLE := isLE_of_compareLex h'
    exact Std.isLE_compare.mp hle
  cases bias with
  | greatestLowerBound =>
      have h₁ := hsource hab
      have h₂ := hsource hbc
      omega
  | leastUpperBound =>
      have h₁ := hsource hab
      have h₂ := hsource hbc
      omega

/-! ## Entries by place -/

namespace Entry

/-- By place, then by name. What is absent comes first. -/
def originOrder : Entry → Entry → Ordering :=
  compareLex (compareOn Entry.place?) (compareOn Entry.name?)

/-- By generated column, then by generated line, then by name. -/
def targetOrder : Entry → Entry → Ordering :=
  compareLex (compareOn fun e => e.generated.column)
    (compareLex (compareOn fun e => e.generated.line) (compareOn Entry.name?))

instance : Std.TransCmp originOrder :=
  inferInstanceAs (Std.TransCmp (compareLex (compareOn Entry.place?) (compareOn Entry.name?)))

instance : Std.TransCmp targetOrder :=
  inferInstanceAs (Std.TransCmp (compareLex (compareOn fun e => e.generated.column)
    (compareLex (compareOn fun e => e.generated.line) (compareOn Entry.name?))))

/-- Whether an entry has the position, the place and the name of another one. -/
def repeats (e c : Entry) : Bool := c.generated == e.generated && c.origin == e.origin

theorem repeats_iff {e c : Entry} : e.repeats c ↔ c = { e with lastColumn := c.lastColumn } := by
  rw [repeats, Bool.and_eq_true, beq_iff_eq, beq_iff_eq]
  constructor
  · rintro ⟨hgenerated, horigin⟩
    rw [← hgenerated, ← horigin]
  · intro h
    rw [h]
    exact ⟨rfl, rfl⟩

/-- Orders that do not look at last columns do not tell repetitions apart. -/
theorem eq_of_repeats {cmp : Entry → Entry → Ordering} [Std.ReflCmp cmp]
    (hcmp : ∀ (a b : Entry) (last last' : Option UInt32),
      cmp { a with lastColumn := last } { b with lastColumn := last' } = cmp a b) {e a b : Entry}
    (ha : e.repeats a) (hb : e.repeats b) : cmp a b = .eq := by
  rw [repeats_iff.mp ha, repeats_iff.mp hb, hcmp]
  exact Std.ReflCmp.compare_self

/-- In original order just repetitions are equal. -/
theorem originalOrder_beq_eq (e c : Entry) : (originalOrder c e == .eq) = e.repeats c := by
  rw [Bool.eq_iff_iff, beq_iff_eq]
  constructor
  · intro h
    have hsame : originalOrder { c with lastColumn := e.lastColumn } e = .eq := h
    rw [repeats_iff, ← eq_of_originalOrder hsame rfl]
  · intro h
    exact eq_of_repeats (fun _ _ _ _ => rfl) h (repeats_iff.mpr rfl)

/-- Sorting leaves repetitions in the sequence they were in. -/
theorem filter_repeats_mergeSort (cmp : Entry → Entry → Ordering) [Std.TransCmp cmp]
    (hcmp : ∀ (a b : Entry) (last last' : Option UInt32),
      cmp { a with lastColumn := last } { b with lastColumn := last' } = cmp a b) (e : Entry)
    (es : List Entry) :
    (es.mergeSort fun a b => (cmp a b).isLE).filter e.repeats = es.filter e.repeats := by
  refine filter_mergeSort_isLE cmp (fun a b ha hb => ?_) es
  rw [eq_of_repeats hcmp ha hb]
  rfl

/-- Sorting leaves the first of repetitions in front of the others. -/
theorem find?_repeats_mergeSort (cmp : Entry → Entry → Ordering) [Std.TransCmp cmp]
    (hcmp : ∀ (a b : Entry) (last last' : Option UInt32),
      cmp { a with lastColumn := last } { b with lastColumn := last' } = cmp a b) (e : Entry)
    (es : List Entry) :
    (es.mergeSort fun a b => (cmp a b).isLE).find? e.repeats = es.find? e.repeats := by
  rw [← List.head?_filter, filter_repeats_mergeSort cmp hcmp, List.head?_filter]

end Entry

namespace MappingTable

/-- Entries in original order are in the order of their places. -/
theorem sorted_original (t : MappingTable) : Search.Sorted Entry.place? t.original :=
  Search.sorted_of_pairwise Entry.place? (t.pairwise_original.imp isLE_of_compareLex)

/-- Just the entries with a place are in original order. -/
theorem mem_original_iff {t : MappingTable} {e : Entry} :
    e ∈ t.original ↔ e ∈ t.generated.toList ∧ ∃ place, e.place? = some place := by
  rw [← Array.mem_toList_iff, t.perm_original.mem_iff, List.mem_filter, Entry.place?,
    Option.isSome_iff_exists]
  simp

/-- Repetitions with a place are in original order as they are in generated order. -/
theorem filter_original (t : MappingTable) {e : Entry} (hplace : e.origin.isSome) :
    t.original.toList.filter e.repeats = t.generated.toList.filter e.repeats := by
  have hsome : (fun c : Entry => e.repeats c && c.origin.isSome) = e.repeats := by
    funext c
    rw [Bool.and_eq_left_iff_imp]
    intro h
    rw [Entry.repeats_iff.mp h]
    exact hplace
  rw [t.original_eq]
  calc (Entry.sortOriginal t.generated.toList).filter e.repeats
    _ = (t.generated.toList.filter fun c => c.origin.isSome).filter e.repeats :=
        Entry.filter_repeats_mergeSort Entry.originalOrder (fun _ _ _ _ => rfl) e _
    _ = t.generated.toList.filter e.repeats := by rw [List.filter_filter, hsome]

/-- Of repetitions with a place the first in original order is the first in generated order. -/
theorem find?_original (t : MappingTable) {e : Entry} (hplace : e.origin.isSome) :
    t.original.toList.find? e.repeats = t.generated.toList.find? e.repeats := by
  rw [← List.head?_filter, t.filter_original hplace, List.head?_filter]

/-- What is found for a generated position. -/
theorem findGenerated?_cases {t : MappingTable}
    (h : t.generated.toList.Pairwise fun a b => (Entry.generatedOrder a b).isLE) (p : Position)
    (bias : Bias) :
    (t.findGenerated? p bias = none ∧
      ∀ e ∈ t.generated.toList, ¬ Within p bias e.generated) ∨
    ∃ e, t.findGenerated? p bias = some e ∧
      Search.FirstNearest Entry.generated Entry.originOrder p bias t.generated.toList e :=
  Search.findIndex?_cases h p bias

/-- What is found for a place. -/
theorem findOriginal?_cases (t : MappingTable) (place : Place) (bias : Bias) :
    ((t.findOriginal? place bias).bind (t.original[·]?) = none ∧
      ∀ e ∈ t.original.toList, ¬ Within (some place) bias e.place?) ∨
    ∃ e, (t.findOriginal? place bias).bind (t.original[·]?) = some e ∧
      Search.FirstNearest Entry.place? Entry.targetOrder (some place) bias
        t.original.toList e :=
  Search.findIndex?_cases t.pairwise_original (some place) bias

end MappingTable

/-! ## What entries say of a position in a source -/

/-- Whether an entry is the one that a position in a source asks for: it is from this source and the
nearest position on the side of the bias, has the least target of those at its place, and is the
first of its repetitions. -/
structure NearestInSource (es : List Entry) (slot : Nat) (p : Position) (bias : Bias) (e : Entry)
    (q : Position) : Prop where
  mem : e ∈ es
  place : e.place? = some ⟨slot, q⟩
  within : Within p bias q
  nearest : ∀ c ∈ es, ∀ r, c.place? = some ⟨slot, r⟩ → Within p bias r → Within q bias r
  least : ∀ c ∈ es, c.place? = e.place? → (e.targetOrder c).isLE
  first : es.find? e.repeats = some e

/-- What entries say of a position in the source of a slot, if there is one. -/
inductive AnswersSource (es : List Entry) (p : Position) (bias : Bias) :
    Option Nat → GeneratedPosition → Prop
  | unknown : AnswersSource es p bias none {}
  | nothing {slot : Nat} : (∀ e ∈ es, ∀ q, e.place? = some ⟨slot, q⟩ → ¬ Within p bias q) →
      AnswersSource es p bias (some slot) {}
  | entry {slot : Nat} {e : Entry} {q : Position} : NearestInSource es slot p bias e q →
      AnswersSource es p bias (some slot) (View.positionOf e)

/-- One entry is asked for. -/
theorem NearestInSource.unique {es : List Entry} {slot : Nat} {p q q' : Position} {bias : Bias}
    {e e' : Entry} (h : NearestInSource es slot p bias e q)
    (h' : NearestInSource es slot p bias e' q') : e = e' := by
  have hposition : q = q' := Std.LawfulEqCmp.eq_of_compare
    ((h.nearest e' h'.mem q' h'.place h'.within).antisymm
      (h'.nearest e h.mem q h.place h.within))
  have hplace : e'.place? = e.place? := by rw [h.place, h'.place, hposition]
  have htarget : e'.targetOrder e = .eq :=
    Std.OrientedCmp.isLE_antisymm (h'.least e h.mem hplace.symm) (h.least e' h'.mem hplace)
  -- entries with one place and one target repeat each other, and one of them is the first
  have hrepeats : e.repeats e' := by
    have hcompare : compare e'.place? e.place? = .eq := by
      rw [hplace]
      exact Std.ReflCmp.compare_self
    have horder : e'.originalOrder e = .eq := (Search.compareLex_of_eq hcompare).trans htarget
    rw [← Entry.originalOrder_beq_eq, horder]
    rfl
  have hsame : e'.repeats = e.repeats := by
    funext c
    rw [Entry.repeats_iff.mp hrepeats]
    rfl
  have hfirst := h'.first
  rw [hsame, h.first] at hfirst
  exact Option.some.inj hfirst

/-- Entries say one thing of a position in a source. -/
theorem AnswersSource.unique {es : List Entry} {slot? : Option Nat} {p : Position} {bias : Bias}
    {answer answer' : GeneratedPosition} (h : AnswersSource es p bias slot? answer)
    (h' : AnswersSource es p bias slot? answer') : answer = answer' := by
  cases h with
  | unknown =>
      cases h'
      rfl
  | nothing hnone =>
      cases h' with
      | nothing _ => rfl
      | entry h' => exact absurd h'.within (hnone _ h'.mem _ h'.place)
  | entry h =>
      cases h' with
      | nothing hnone => exact absurd h.within (hnone _ h.mem _ h.place)
      | entry h' => rw [h.unique h']

/-! ## Answers -/

/-- Whether an answer is a generated position. -/
def GeneratedPosition.IsAt (g : GeneratedPosition) (p : Position) : Prop :=
  g.line = some p.line ∧ g.column = some p.column

namespace View

variable {v : View} {source : String} {slot : Nat}

/-- What is found for a place is what a position asks for, if it is from this source. -/
theorem nearestInSource {t : MappingTable} {p q : Position} {bias : Bias} {e : Entry}
    (h : Search.FirstNearest Entry.place? Entry.targetOrder (some ⟨slot, p⟩) bias
      t.original.toList e) (hplace : e.place? = some ⟨slot, q⟩) :
    NearestInSource t.generated.toList slot p bias e q := by
  have hlisted {c : Entry} (hc : c ∈ t.generated.toList) {r : Position}
      (hcplace : c.place? = some ⟨slot, r⟩) : c ∈ t.original.toList :=
    Array.mem_toList_iff.mpr (MappingTable.mem_original_iff.mpr ⟨hc, _, hcplace⟩)
  refine ⟨(MappingTable.mem_original_iff.mp (Array.mem_toList_iff.mp h.mem)).1, hplace, ?_, ?_, ?_,
    ?_⟩
  · have hside := h.within
    rwa [hplace, Place.within_iff] at hside
  · intro c hc r hcplace hwithin
    have hnear := h.nearest c (hlisted hc hcplace) (by rwa [hcplace, Place.within_iff])
    rwa [hplace, hcplace, Place.within_iff] at hnear
  · intro c hc hsame
    refine h.least c (hlisted hc (hsame.trans hplace)) ?_
    rw [hsame]
    exact Std.ReflCmp.compare_self
  · have hrepeats : (fun c => compareLex (compareOn Entry.place?) Entry.targetOrder c e == .eq) =
        e.repeats := funext (Entry.originalOrder_beq_eq e)
    have hsome : e.origin.isSome := by
      obtain ⟨origin, horigin, -⟩ := Option.map_eq_some_iff.mp hplace
      rw [horigin]
      rfl
    rw [← t.find?_original hsome, ← hrepeats]
    exact h.first

/-- **What a search for a place in a source leads to**: what the position asks for, or else an entry
of another source or none, and then no entry of the source is on the side of the bias. -/
theorem findOriginal?_inSource (t : MappingTable) (slot : Nat) (p : Position) (bias : Bias) :
    (∃ e q, (t.findOriginal? ⟨slot, p⟩ bias).bind (t.original[·]?) = some e ∧
      NearestInSource t.generated.toList slot p bias e q) ∨
    (∀ e, (t.findOriginal? ⟨slot, p⟩ bias).bind (t.original[·]?) = some e →
      ∃ place, e.place? = some place ∧ place.source ≠ slot) ∧
    ∀ c ∈ t.generated.toList, ∀ q, c.place? = some ⟨slot, q⟩ → ¬ Within p bias q := by
  have hlisted {c : Entry} (hc : c ∈ t.generated.toList) {q : Position}
      (hplace : c.place? = some ⟨slot, q⟩) : c ∈ t.original.toList :=
    Array.mem_toList_iff.mpr (MappingTable.mem_original_iff.mpr ⟨hc, _, hplace⟩)
  have hon {c : Entry} {q : Position} (hplace : c.place? = some ⟨slot, q⟩) :
      Within (some ⟨slot, p⟩) bias c.place? ↔ Within p bias q := by
    rw [hplace, Place.within_iff]
  rcases t.findOriginal?_cases ⟨slot, p⟩ bias with ⟨hfind, hnone⟩ | ⟨e, hfind, hnearest⟩
  · refine .inr ⟨fun e he => ?_, fun c hc q hplace hwithin => ?_⟩
    · rw [hfind] at he
      cases he
    · exact hnone c (hlisted hc hplace) ((hon hplace).mpr hwithin)
  obtain ⟨-, ⟨slot', q⟩, hplace⟩ :=
    MappingTable.mem_original_iff.mp (Array.mem_toList_iff.mp hnearest.mem)
  by_cases hsource : slot' = slot
  · subst hsource
    exact .inl ⟨e, q, hfind, nearestInSource hnearest hplace⟩
  · refine .inr ⟨fun e' he' => ?_, fun c hc r hcplace hwithin => hsource ?_⟩
    · obtain rfl : e = e' := Option.some.inj (hfind.symm.trans he')
      exact ⟨_, hplace, hsource⟩
    · -- an entry of the source would be nearer than what is found
      have hside := hnearest.within
      have hnear := hnearest.nearest c (hlisted hc hcplace) ((hon hcplace).mpr hwithin)
      rw [hplace] at hside hnear
      rw [hcplace] at hnear
      exact Place.source_eq_of_within hside hnear rfl

/-- **A view answers what its entries say** of a position in the source. -/
theorem answersSource (v : View) (source : String) (p : Position) (bias : Bias) :
    AnswersSource v.table.generated.toList p bias (v.sourceSlot? source)
      (v.generatedPositionFor source p bias) := by
  rw [generatedPositionFor]
  cases v.sourceSlot? source with
  | none => exact .unknown
  | some slot =>
      dsimp only
      rcases findOriginal?_inSource v.table slot p bias with ⟨e, q, hfind, h⟩ | ⟨hother, hnone⟩
      · rw [hfind]
        dsimp only
        rw [h.place, Option.map_some, if_pos rfl]
        exact .entry h
      · cases hfind : (v.table.findOriginal? ⟨slot, p⟩ bias).bind (v.table.original[·]?) with
        | none => exact .nothing hnone
        | some e =>
            obtain ⟨place, hplace, hsource⟩ := hother e hfind
            dsimp only
            rw [hplace, Option.map_some, if_neg fun heq => hsource (Option.some.inj heq)]
            exact .nothing hnone

/-- **The nearest entry of a source is found.** It is on the side of the bias, and none of the
source on that side is nearer. -/
theorem generatedPositionFor_nearest (hslot : v.sourceSlot? source = some slot) {p q : Position}
    {bias : Bias} {e : Entry} (he : e ∈ v.table.generated.toList)
    (hplace : e.place? = some ⟨slot, q⟩) (hwithin : Within p bias q) :
    ∃ e' ∈ v.table.generated.toList, ∃ q', e'.place? = some ⟨slot, q'⟩ ∧ Within p bias q' ∧
      Within q' bias q ∧ v.generatedPositionFor source p bias = positionOf e' := by
  have htells := v.answersSource source p bias
  rw [hslot] at htells
  generalize v.generatedPositionFor source p bias = answer at htells ⊢
  cases htells with
  | nothing hnone => exact absurd hwithin (hnone e he q hplace)
  | @entry _ e' q' h =>
      exact ⟨e', h.mem, q', h.place, h.within, h.nearest e he q hplace hwithin, rfl⟩

/-- An entry at the very place is found, or another one at this place. -/
theorem generatedPositionFor_exact (hslot : v.sourceSlot? source = some slot) {p : Position}
    {e : Entry} (he : e ∈ v.table.generated.toList) (hplace : e.place? = some ⟨slot, p⟩)
    (bias : Bias) : ∃ e' ∈ v.table.generated.toList, e'.place? = some ⟨slot, p⟩ ∧
      v.generatedPositionFor source p bias = positionOf e' := by
  obtain ⟨e', he', q, hplace', hside, hnear, hanswer⟩ :=
    generatedPositionFor_nearest hslot he hplace (.refl p bias)
  -- nothing but the place itself is between it and what is found
  have hq : q = p := (Std.LawfulEqCmp.eq_of_compare (hside.antisymm hnear)).symm
  rw [hq] at hplace'
  exact ⟨e', he', hplace', hanswer⟩

/-- Nothing is found where no entry of the source is on the side of the bias. -/
theorem generatedPositionFor_eq_empty (hslot : v.sourceSlot? source = some slot) {p : Position}
    {bias : Bias} (hnone : ∀ e ∈ v.table.generated.toList, ∀ q, e.place? = some ⟨slot, q⟩ →
      ¬ Within p bias q) : v.generatedPositionFor source p bias = {} := by
  have htells := v.answersSource source p bias
  rw [hslot] at htells
  generalize v.generatedPositionFor source p bias = answer at htells ⊢
  cases htells with
  | nothing _ => rfl
  | entry h => exact absurd h.within (hnone _ h.mem _ h.place)

/-- **An entry is among all that are found at its place.** -/
theorem mem_allGeneratedPositionsFor (hslot : v.sourceSlot? source = some slot) {p : Position}
    {e : Entry} (he : e ∈ v.table.generated.toList) (hplace : e.place? = some ⟨slot, p⟩) :
    positionOf e ∈ v.allGeneratedPositionsFor source p.line (some p.column) := by
  obtain ⟨j, hj, rfl⟩ :=
    Array.getElem_of_mem (MappingTable.mem_original_iff.mpr ⟨he, _, hplace⟩)
  -- the search finds the start of a run of entries at this place that ends with the given one
  obtain ⟨i, hfind, hij, hrun⟩ :=
    Search.exists_run v.table.sorted_original hj .leastUpperBound
  have hsame (k : Nat) (hik : i ≤ k) (hkj : k ≤ j) :
      v.table.original[k].place? = some ⟨slot, p⟩ := by
    rw [← hplace]
    exact Std.LawfulEqCmp.eq_of_compare (hrun k hik hkj)
  rw [hplace] at hfind
  have hfind' : v.table.findOriginal? { source := slot, position := p } .leastUpperBound =
      some i := hfind
  have hstart : v.table.original[i]?.bind Entry.place? = some ⟨slot, p⟩ := by
    rw [Array.getElem?_eq_getElem (by omega)]
    exact hsame i (Nat.le_refl i) hij
  unfold allGeneratedPositionsFor
  simp only [hslot, Option.getD_some, hfind', hstart, if_true]
  apply List.mem_map_of_mem
  -- all of the run is taken
  rw [← List.take_append_drop (j - i + 1) (v.table.original.toList.drop i),
    List.takeWhile_append_of_pos]
  · apply List.mem_append_left
    apply List.mem_of_getElem? (i := j - i)
    rw [List.getElem?_take_of_lt (by omega), List.getElem?_drop, Nat.add_sub_cancel' hij,
      Array.getElem?_toList, Array.getElem?_eq_getElem hj]
  · intro e he
    obtain ⟨k, hk, rfl⟩ := List.getElem_of_mem he
    rw [List.length_take] at hk
    rw [List.getElem_take, List.getElem_drop, Array.getElem_toList, comesFrom,
      hsame (i + k) (by omega) (by omega)]
    simp

/-! ## Mappings found by name -/

/-- Whether a source is looked up in the slot that has its name. -/
def Knows (v : View) (source : String) : Prop :=
  ∀ slot < v.sources.size, v.sourceAt slot = source → v.sourceSlot? source = some slot

/-- A mapping with an original location comes from an entry with a place. -/
theorem exists_entry {a : Mapping} (ha : a ∈ v.mappings .generated) {o : OriginalLocation}
    (ho : a.original = some o) : ∃ e ∈ v.table.generated.toList, ∃ slot,
      v.mapping e = a ∧ e.place? = some ⟨slot, o.position⟩ ∧ v.sourceAt slot = o.source := by
  obtain ⟨e, he, rfl⟩ := List.mem_map.mp ha
  obtain ⟨⟨slot, p⟩, hplace, rfl⟩ := Option.map_eq_some_iff.mp ho
  exact ⟨e, he, slot, rfl, hplace, rfl⟩

/-- The slot of a place is one of the string table. -/
theorem Sound.slot_lt (h : v.Sound) {e : Entry} (he : e ∈ v.table.generated.toList)
    {place : Place} (hplace : e.place? = some place) : place.source < v.sources.size := by
  obtain ⟨origin, horigin, rfl⟩ := Option.map_eq_some_iff.mp hplace
  exact (h e he).source origin horigin

/-- **The nearest mapping of a known source is found.** -/
theorem exists_nearest (h : v.Sound) (hknows : v.Knows source) {a : Mapping}
    (ha : a ∈ v.mappings .generated) {p q : Position} (ho : a.original = some ⟨source, q⟩)
    {bias : Bias} (hwithin : Within p bias q) : ∃ b ∈ v.mappings .generated, ∃ q',
      b.original = some ⟨source, q'⟩ ∧ Within p bias q' ∧ Within q' bias q ∧
        (v.generatedPositionFor source p bias).IsAt b.generated := by
  obtain ⟨e, he, slot, rfl, hplace, hname⟩ := exists_entry ha ho
  have hslot := hknows slot (h.slot_lt he hplace) hname
  obtain ⟨e', he', q', hplace', hside, hnear, hanswer⟩ :=
    generatedPositionFor_nearest hslot he hplace hwithin
  refine ⟨v.mapping e', List.mem_map_of_mem he', q', ?_, hside, hnear, ?_⟩
  · rw [mapping, hplace', Option.map_some, hname]
  · rw [hanswer]
    exact ⟨rfl, rfl⟩

/-- **The place of a mapping in a known source leads to a mapping with that place.** -/
theorem exists_exact (h : v.Sound) {a : Mapping} (ha : a ∈ v.mappings .generated)
    {o : OriginalLocation} (ho : a.original = some o) (hknows : v.Knows o.source) (bias : Bias) :
    ∃ b ∈ v.mappings .generated, b.original = some o ∧
      (v.generatedPositionFor o.source o.position bias).IsAt b.generated := by
  obtain ⟨e, he, slot, rfl, hplace, hname⟩ := exists_entry ha ho
  have hslot := hknows slot (h.slot_lt he hplace) hname
  obtain ⟨e', he', hplace', hanswer⟩ := generatedPositionFor_exact hslot he hplace bias
  refine ⟨v.mapping e', List.mem_map_of_mem he', ?_, ?_⟩
  · rw [mapping, hplace', Option.map_some, hname]
  · rw [hanswer]
    exact ⟨rfl, rfl⟩

/-- A mapping is among all that are found at its place in a known source. -/
theorem exists_allGeneratedPositionsFor (h : v.Sound) {a : Mapping}
    (ha : a ∈ v.mappings .generated) {o : OriginalLocation} (ho : a.original = some o)
    (hknows : v.Knows o.source) :
    ∃ g ∈ v.allGeneratedPositionsFor o.source o.position.line (some o.position.column),
      g.IsAt a.generated := by
  obtain ⟨e, he, slot, rfl, hplace, hname⟩ := exists_entry ha ho
  have hslot := hknows slot (h.slot_lt he hplace) hname
  exact ⟨positionOf e, mem_allGeneratedPositionsFor hslot he hplace, rfl, rfl⟩

end View

/-! ## Sources looked up in their slots -/

namespace FlatMap

variable {f : FlatMap} {v : View}

/-- The full name of the source in a slot is that of a name in the table. -/
theorem exists_name (hv : f.view = .ok v) {slot : Nat} (hslot : slot < v.sources.size) :
    ∃ name ∈ f.sources.toList, f.sources.get? slot = some name ∧
      v.sourceAt slot = SourceRoot.resolve f.root name := by
  obtain ⟨t, -, rfl⟩ := map_eq_ok_iff.mp hv
  have hget : f.sources.get? slot = some f.sources.toList[slot] := by
    rw [StringTable.get?_eq]
    exact List.getElem?_eq_getElem hslot
  refine ⟨f.sources.toList[slot], List.getElem_mem hslot, hget, ?_⟩
  simp only [View.sourceAt, hget, Option.getD_some]

/-- A source is looked up in its slot if the name it is kept under is seen from the root again. -/
theorem knows_of_relativize (hv : f.view = .ok v) (hnodup : f.sourceNames.Nodup) {name : String}
    (hname : name ∈ f.sources.toList)
    (hback : SourceRoot.relativize f.root (SourceRoot.resolve f.root name) = name) :
    v.Knows (SourceRoot.resolve f.root name) := by
  have hroot : v.root = f.root ∧ v.sources = f.sources := by
    obtain ⟨t, -, rfl⟩ := map_eq_ok_iff.mp hv
    exact ⟨rfl, rfl⟩
  intro slot hslot hsource
  obtain ⟨name', hname', hget, hsource'⟩ := exists_name hv hslot
  rw [hsource'] at hsource
  -- no other name has the same full name
  have heq : name' = name := List.inj_on_of_nodup_map hnodup hname' hname hsource
  rw [heq] at hget
  rw [View.sourceSlot?, hroot.1, hroot.2, hback]
  exact StringTable.indexOf?_of_get? (List.Nodup.of_map _ hnodup) hget

end FlatMap

end SourceMap

import Mathlib
import SourceMap.Proofs.Table

/-!
# Canonical tables

The two orders of entries are those of keys that are made of numbers (`Entry.generatedKey`,
`Entry.originalKey`), where what is absent comes before all that is there. Each of the keys tells
everything of an entry but its last column, so that in a list without spans just repetitions are
equal, and a table does not depend on the order in which its entries were given
(`MappingTable.ofList_canonical`).

The entries in original order can be kept as their indices in generated order
(`MappingTable.originalIndices`).
-/

set_option autoImplicit false

namespace SourceMap

/-! ## Orders by keys -/

/-- Whether a comparison puts elements in the order of a key. -/
structure OrdersBy {α κ : Type} [LT κ] (cmp : α → α → Ordering) (key : α → κ) : Prop where
  lt_iff : ∀ a b, cmp a b = .lt ↔ key a < key b
  eq_iff : ∀ a b, cmp a b = .eq ↔ key a = key b

namespace OrdersBy

variable {α β κ ν : Type} {cmp cmp' : α → α → Ordering}

theorem isLE_iff [PartialOrder κ] {key : α → κ} (h : OrdersBy cmp key) (a b : α) :
    (cmp a b).isLE ↔ key a ≤ key b := by
  rw [Ordering.isLE_iff_eq_lt_or_eq_eq, h.lt_iff, h.eq_iff, le_iff_lt_or_eq]

theorem nat : OrdersBy (compare : Nat → Nat → Ordering) id :=
  ⟨fun _ _ => Std.compare_eq_lt, fun _ _ => Std.compare_eq_iff_eq⟩

theorem uint32 : OrdersBy (compare : UInt32 → UInt32 → Ordering) UInt32.toNat :=
  ⟨fun _ _ => Std.compare_eq_lt.trans UInt32.lt_iff_toNat_lt,
    fun _ _ => Std.compare_eq_iff_eq.trans UInt32.toNat_inj.symm⟩

/-- A comparison of one part of what is compared. -/
theorem on [LT κ] {key : α → κ} (h : OrdersBy cmp key) (part : β → α) :
    OrdersBy (fun a b => cmp (part a) (part b)) fun a => key (part a) :=
  ⟨fun a b => h.lt_iff (part a) (part b), fun a b => h.eq_iff (part a) (part b)⟩

/-- Two comparisons, one after the other. -/
theorem lex [LT κ] [LT ν] {key : α → κ} {key' : α → ν} (h : OrdersBy cmp key)
    (h' : OrdersBy cmp' key') :
    OrdersBy (compareLex cmp cmp') fun a => toLex (key a, key' a) where
  lt_iff a b := by
    rw [compareLex, Ordering.then_eq_lt, Prod.Lex.toLex_lt_toLex, h.lt_iff, h.eq_iff, h'.lt_iff]
  eq_iff a b := by
    rw [compareLex, Ordering.then_eq_eq, toLex_inj, Prod.mk.injEq, h.eq_iff, h'.eq_iff]

/-- What is absent comes first. -/
theorem option [Ord α] [LT κ] {key : α → κ} (h : OrdersBy (compare : α → α → Ordering) key) :
    OrdersBy (compare : Option α → Option α → Ordering)
      fun a => a.elim ⊥ fun a => (key a : WithBot κ) where
  lt_iff
    | none, none => by simp [compare]
    | none, some _ => by simp [compare]
    | some _, none => by simp [compare]
    | some a, some b => (h.lt_iff a b).trans WithBot.coe_lt_coe.symm
  eq_iff
    | none, none => by simp [compare]
    | none, some _ => by simp [compare]
    | some _, none => by simp [compare]
    | some a, some b => (h.eq_iff a b).trans WithBot.coe_inj.symm

end OrdersBy

/-! ## Keys of entries -/

/-- The line and the column of a position. -/
def Position.key (p : Position) : ℕ ×ₗ ℕ :=
  toLex (p.line.toNat, p.column.toNat)

/-- The source, the line and the column of a place. -/
def Place.key (p : Place) : ℕ ×ₗ ℕ ×ₗ ℕ :=
  toLex (p.source, p.position.key)

theorem Position.ordersBy : OrdersBy (compare : Position → Position → Ordering) Position.key :=
  (OrdersBy.uint32.on line).lex (OrdersBy.uint32.on column)

theorem Place.ordersBy : OrdersBy (compare : Place → Place → Ordering) Place.key :=
  (OrdersBy.nat.on source).lex (Position.ordersBy.on position)

namespace Entry

/-- The place of an entry, or what is before all places. -/
def placeKey (e : Entry) : WithBot (ℕ ×ₗ ℕ ×ₗ ℕ) :=
  e.place?.elim ⊥ fun p => p.key

/-- The slot of the name of an entry, or what is before all slots. -/
def nameKey (e : Entry) : WithBot ℕ :=
  e.name?.elim ⊥ fun slot => slot

/-- The generated line and column, the place and the name. -/
def generatedKey (e : Entry) : (ℕ ×ₗ ℕ) ×ₗ WithBot (ℕ ×ₗ ℕ ×ₗ ℕ) ×ₗ WithBot ℕ :=
  toLex (e.generated.key, toLex (e.placeKey, e.nameKey))

/-- The place, the generated column, the generated line and the name. -/
def originalKey (e : Entry) : WithBot (ℕ ×ₗ ℕ ×ₗ ℕ) ×ₗ ℕ ×ₗ ℕ ×ₗ WithBot ℕ :=
  toLex (e.placeKey, toLex (e.generated.column.toNat, toLex (e.generated.line.toNat, e.nameKey)))

theorem generatedOrder_ordersBy : OrdersBy generatedOrder generatedKey :=
  (Position.ordersBy.on generated).lex
    ((Place.ordersBy.option.on place?).lex (OrdersBy.nat.option.on name?))

theorem originalOrder_ordersBy : OrdersBy originalOrder originalKey :=
  (Place.ordersBy.option.on place?).lex
    ((OrdersBy.uint32.on fun e : Entry => e.generated.column).lex
      ((OrdersBy.uint32.on fun e : Entry => e.generated.line).lex (OrdersBy.nat.option.on name?)))

end Entry

/-! ## Indices in original order -/

namespace MappingTable

/-- The entry at an index in generated order. -/
def entryAt (t : MappingTable) (i : UInt32) : Entry :=
  t.generated[i.toNat]!

/-- The indices, in generated order, of the entries that have a place. -/
def placedIndices (t : MappingTable) : List UInt32 :=
  (t.generated.toList.zipIdx.filter fun x => x.1.origin.isSome).map fun x => UInt32.ofNat x.2

/-- The indices of the entries that have a place, in the original order of these entries. -/
def originalIndices (t : MappingTable) : List UInt32 :=
  t.placedIndices.mergeSort fun i j => (Entry.originalOrder (t.entryAt i) (t.entryAt j)).isLE

section

variable {t : MappingTable}

/-- The number of an entry among those in generated order is an index of it. -/
theorem toNat_ofNat_of_mem (hsize : t.generated.size < UInt32.size) {e : Entry} {i : Nat}
    (h : (e, i) ∈ t.generated.toList.zipIdx) :
    (UInt32.ofNat i).toNat = i ∧ t.entryAt (UInt32.ofNat i) = e := by
  have hget := List.mem_zipIdx_iff_getElem?.mp h
  rw [Array.getElem?_toList] at hget
  obtain ⟨hi, hget⟩ := Array.getElem?_eq_some_iff.mp hget
  have hword : (UInt32.ofNat i).toNat = i := by
    rw [UInt32.toNat_ofNat']
    exact Nat.mod_eq_of_lt (hi.trans hsize)
  refine ⟨hword, ?_⟩
  rw [entryAt, hword, getElem!_pos t.generated i hi, hget]

theorem nodup_placedIndices (hsize : t.generated.size < UInt32.size) : t.placedIndices.Nodup := by
  have hlt : t.generated.toList.zipIdx.Pairwise fun a b => a.2 < b.2 :=
    List.pairwise_map.mp (by rw [List.zipIdx_map_snd]; exact List.pairwise_lt_range')
  refine List.pairwise_map.mpr ((hlt.filter _).imp_of_mem fun {a b} ha hb hlt heq => ?_)
  have ha := (toNat_ofNat_of_mem hsize (List.mem_filter.mp ha).1).1
  have hb := (toNat_ofNat_of_mem hsize (List.mem_filter.mp hb).1).1
  rw [heq, hb] at ha
  omega

theorem mem_placedIndices (hsize : t.generated.size < UInt32.size) (i : UInt32) :
    i ∈ t.placedIndices ↔ i.toNat < t.generated.size ∧ (t.entryAt i).place?.isSome := by
  have hplace (e : Entry) : e.place?.isSome = e.origin.isSome := Option.isSome_map
  constructor
  · intro h
    obtain ⟨⟨e, j⟩, hmem, rfl⟩ := List.mem_map.mp h
    obtain ⟨hlisted, hsome⟩ := List.mem_filter.mp hmem
    obtain ⟨hword, hentry⟩ := toNat_ofNat_of_mem hsize hlisted
    rw [hword, hentry, hplace]
    exact ⟨by simpa using (List.mem_zipIdx' hlisted).1, hsome⟩
  · rintro ⟨hi, hsome⟩
    have hget : t.generated.toList[i.toNat]? = some (t.entryAt i) := by
      rw [Array.getElem?_toList, entryAt, getElem!_pos t.generated i.toNat hi]
      exact Array.getElem?_eq_getElem hi
    refine List.mem_map.mpr ⟨(t.entryAt i, i.toNat), List.mem_filter.mpr ⟨?_, ?_⟩, ?_⟩
    · exact List.mem_zipIdx_iff_getElem?.mpr hget
    · rwa [← hplace]
    · exact UInt32.ofNat_toNat

theorem map_entryAt_placedIndices (hsize : t.generated.size < UInt32.size) :
    t.placedIndices.map t.entryAt = t.generated.toList.filter fun e => e.origin.isSome := by
  rw [placedIndices, List.map_map]
  calc (t.generated.toList.zipIdx.filter fun x => x.1.origin.isSome).map
        (t.entryAt ∘ fun x => UInt32.ofNat x.2)
    _ = (t.generated.toList.zipIdx.filter fun x => x.1.origin.isSome).map Prod.fst :=
        List.map_congr_left fun _ h => (toNat_ofNat_of_mem hsize (List.mem_filter.mp h).1).2
    _ = (t.generated.toList.zipIdx.map Prod.fst).filter fun e => e.origin.isSome := by
        rw [List.filter_map]
        rfl
    _ = t.generated.toList.filter fun e => e.origin.isSome := by rw [List.zipIdx_map_fst]

/-- **The entries in original order are those at the indices.** -/
theorem original_eq_map (hsize : t.generated.size < UInt32.size) :
    t.original.toList = t.originalIndices.map t.entryAt := by
  have hsort : t.originalIndices.map t.entryAt =
      (t.placedIndices.map t.entryAt).mergeSort fun a b => (Entry.originalOrder a b).isLE :=
    List.map_mergeSort fun _ _ _ _ => rfl
  rw [hsort, map_entryAt_placedIndices hsize, t.original_eq]
  rfl

end

/-! ## Tables of lists -/

/-- Whether a table has the entries of a list in generated order, and the index of each of them that
has a place, and no other, in original order. -/
structure Canonical (t : MappingTable) (es : List Entry) : Prop where
  perm : t.generated.toList.Perm es
  sorted : t.generated.toList.Pairwise fun a b => a.generatedKey ≤ b.generatedKey
  nodup : t.originalIndices.Nodup
  mem_iff : ∀ i, i ∈ t.originalIndices ↔
    i.toNat < t.generated.size ∧ (t.entryAt i).place?.isSome
  sorted_indices : t.originalIndices.Pairwise fun i j =>
    (t.entryAt i).originalKey ≤ (t.entryAt j).originalKey
  original : t.original.toList = t.originalIndices.map t.entryAt

variable {es : List Entry}

/-- Tables with the same entries in generated order are the same. -/
theorem ext_generated {t u : MappingTable} (h : t.generated = u.generated) : t = u := by
  have horiginal : t.original = u.original := by rw [t.original_eq, u.original_eq, h]
  cases t
  cases u
  simp_all

theorem canonical_ofList (hsize : es.length < UInt32.size) : (ofList es).Canonical es := by
  have hperm : (ofList es).generated.toList.Perm es := Entry.perm_sortGenerated es
  have hbound : (ofList es).generated.size < UInt32.size := by
    rw [← Array.length_toList, hperm.length_eq]
    exact hsize
  have hindices : (ofList es).originalIndices.Perm (ofList es).placedIndices :=
    List.mergeSort_perm _ _
  have horiginal := original_eq_map hbound
  have hsorted := (ofList es).pairwise_original
  rw [horiginal] at hsorted
  exact
    { perm := hperm
      sorted := (pairwise_mergeSort_isLE Entry.generatedOrder es).imp
        fun h => (Entry.generatedOrder_ordersBy.isLE_iff _ _).mp h
      nodup := hindices.nodup_iff.mpr (nodup_placedIndices hbound)
      mem_iff := fun i => hindices.mem_iff.trans (mem_placedIndices hbound i)
      sorted_indices := (List.pairwise_map.mp hsorted).imp
        fun h => (Entry.originalOrder_ordersBy.isLE_iff _ _).mp h
      original := horiginal }

/-- A list of entries without spans is sorted in one way only. -/
theorem Canonical.unique {t u : MappingTable} (ht : t.Canonical es) (hu : u.Canonical es)
    (hspans : ∀ e ∈ es, e.lastColumn = none) : t = u := by
  have hsame : t.generated.toList.Perm u.generated.toList := ht.perm.trans hu.perm.symm
  refine ext_generated (Array.toList_inj.mp (hsame.eq_of_pairwise ?_ ht.sorted hu.sorted))
  intro a b ha hb hab hba
  have hlast : a.lastColumn = b.lastColumn := by
    rw [hspans a (ht.perm.mem_iff.mp ha), hspans b (hu.perm.mem_iff.mp hb)]
  -- the key tells all the rest of an entry
  have horder : a.generatedOrder b = .eq :=
    (Entry.generatedOrder_ordersBy.eq_iff a b).mpr (le_antisymm hab hba)
  exact Entry.eq_of_generatedOrder horder hlast

/-- **Tables are canonical.** The table of a list of entries without spans has its entries sorted by
generated line and column, place and name, and the indices of just those with a place, each once,
sorted by place, generated column, generated line and name. It is the only such table, so that the
order in which the entries were given makes no difference. -/
theorem ofList_canonical (hsize : es.length < UInt32.size)
    (hspans : ∀ e ∈ es, e.lastColumn = none) :
    (∀ t : MappingTable, t.Canonical es ↔ t = ofList es) ∧
      ∀ es' : List Entry, es'.Perm es → ofList es' = ofList es := by
  have htable := canonical_ofList hsize
  refine ⟨fun t => ⟨fun ht => ht.unique htable hspans, ?_⟩, fun es' hperm => ?_⟩
  · rintro rfl
    exact htable
  · have htable' := canonical_ofList (hperm.length_eq ▸ hsize)
    have hcanonical : (ofList es').Canonical es :=
      { htable' with perm := htable'.perm.trans hperm }
    exact hcanonical.unique htable hspans

/-- Entries of one position and entries of one place, given from the last to the first. -/
theorem ofList_canonical_reverse :
    let es : List Entry :=
      [{ generated := ⟨2, 0⟩, origin := some { place := ⟨0, ⟨1, 4⟩⟩ } },
        { generated := ⟨1, 3⟩, origin := some { place := ⟨1, ⟨1, 0⟩⟩ } },
        { generated := ⟨1, 3⟩ },
        { generated := ⟨1, 0⟩, origin := some { place := ⟨0, ⟨1, 4⟩⟩, name := some 0 } }]
    (es.length < UInt32.size ∧ ∀ e ∈ es, e.lastColumn = none) ∧ (ofList es).Canonical es ∧
      (ofList es).originalIndices = [0, 3, 2] ∧ es.reverse.Perm es ∧
      ofList es.reverse = ofList es := by
  intro es
  have hsize : es.length < UInt32.size := by decide
  have hspans : ∀ e ∈ es, e.lastColumn = none := by simp [es]
  obtain ⟨hcanonical, hperm⟩ := ofList_canonical hsize hspans
  exact ⟨⟨hsize, hspans⟩, (hcanonical _).mpr rfl, by cbv, es.reverse_perm,
    hperm _ es.reverse_perm⟩

end MappingTable

end SourceMap

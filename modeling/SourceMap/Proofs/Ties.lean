import Mathlib
import SourceMap.Proofs.Alike
import SourceMap.Proofs.Covering
import SourceMap.Proofs.Retracing

/-!
# Ties

Where several mappings have one generated position, a loaded map answers with the first of them in
generated order: by the number of its source, its original position and the number of its name. A
builder that starts from a map numbers sources and names by their first use. So a map that was built
again finds a mapping at the same position as before, and the first one there by the new numbers
(`originalPositionFor_rebuilt`). It is the same mapping if the numbers of the builder keep it first,
as they do where a position has one mapping only.
-/

set_option autoImplicit false

namespace SourceMap

/-! ## Tables with the same positions -/

/-- Entries that are equal in generated order stand for the same mapping. -/
theorem View.mapping_eq_of_generatedOrder {v : View} {e e' : Entry}
    (h : Entry.generatedOrder e e' = .eq) : v.mapping e = v.mapping e' := by
  simp only [Entry.generatedOrder, compareLex, compareOn, Ordering.then_eq_eq,
    Std.compare_eq_iff_eq] at h
  obtain ⟨hgenerated, hplace, hname⟩ := h
  rw [View.mapping, View.mapping, hgenerated, hplace, hname]

namespace MappingTable

variable {t t' : MappingTable} {p : Position} {bias : Bias}

/-- What is found is the first entry at its position. -/
theorem find?_of_findGenerated? (h : t.InOrder) {e : Entry}
    (hfind : t.findGenerated? p bias = some e) :
    t.generated.toList.find? (fun c => c.generated == e.generated) = some e := by
  obtain ⟨i, hi, he⟩ := Option.bind_eq_some_iff.mp hfind
  have hfinds := Search.finds_of_findIndex? (Search.sorted_of_pairwise Entry.generated h) hi
  have hsame (c : Entry) :
      (compare c.generated e.generated == .eq) = (c.generated == e.generated) := by
    rw [Bool.eq_iff_iff, beq_iff_eq, beq_iff_eq, Std.compare_eq_iff_eq]
  simpa only [hsame] using hfinds.find?_eq he

/-- What is found is at the position that is found among all positions. -/
theorem map_generated_findGenerated? (t : MappingTable) (p : Position) (bias : Bias) :
    (t.findGenerated? p bias).map Entry.generated =
      (Search.findIndex? id p (t.generated.map Entry.generated) bias).bind
        ((t.generated.map Entry.generated)[·]?) := by
  rw [findGenerated?, Search.findIndex?_map, Option.map_bind]
  simp only [Function.comp_def, Array.getElem?_map]

/-- Tables with the same generated positions find entries at the same position. -/
theorem findGenerated?_of_positions (h : t.InOrder) (h' : t'.InOrder)
    (hpositions : ∀ q, q ∈ t.generated.toList.map Entry.generated ↔
      q ∈ t'.generated.toList.map Entry.generated) (p : Position) (bias : Bias) :
    (t.findGenerated? p bias).map Entry.generated =
      (t'.findGenerated? p bias).map Entry.generated := by
  have hpairwise : (t.generated.map Entry.generated).toList.Pairwise
      fun q q' => (compare q q').isLE := by
    rw [Array.toList_map]
    exact List.pairwise_map.mpr h
  have hpairwise' : (t'.generated.map Entry.generated).toList.Pairwise
      fun q q' => (compare q q').isLE := by
    rw [Array.toList_map]
    exact List.pairwise_map.mpr h'
  rw [map_generated_findGenerated?, map_generated_findGenerated?]
  refine Search.getElem?_findIndex?_congr (Search.sorted_of_pairwise id hpairwise)
    (Search.sorted_of_pairwise id hpairwise') ?_ bias
  refine eraseReps_eq_of_pairwise ?_ hpairwise hpairwise' ?_
  · intro q _ q' _ hle hge
    exact Std.LawfulEqCmp.eq_of_compare (Std.OrientedCmp.isLE_antisymm hle hge)
  · simpa only [Array.toList_map] using hpositions

end MappingTable

/-! ## Maps built again -/

/-- Whether a mapping is the first of some at its generated position. -/
def Mapping.FirstAt (ms : List Mapping) (a : Mapping) : Prop :=
  ms.find? (fun c => c.generated == a.generated) = some a

/-- The first entry at a position is that of the first mapping. -/
theorem View.firstAt {v : View} {e : Entry}
    (h : v.table.generated.toList.find? (fun c => c.generated == e.generated) = some e) :
    Mapping.FirstAt (v.mappings .generated) (v.mapping e) := by
  have hmap : ((fun c : Mapping => c.generated == (v.mapping e).generated) ∘ v.mapping) =
      fun c => c.generated == e.generated := rfl
  rw [Mapping.FirstAt, mappings, List.find?_map, hmap, h, Option.map_some]

namespace Builder

/-- Whether none of some mappings at the generated position of one of them has smaller numbers in a
builder. -/
def LeastAt (b : Builder) (ms : List Mapping) (a : Mapping) : Prop :=
  a ∈ ms ∧ ∀ c ∈ ms, c.generated = a.generated →
    (Entry.generatedOrder (b.entry a) (b.entry c)).isLE

/-- Whether the second of two views holds the mappings of the first one, under the numbers of a
builder and in generated order. -/
structure Renumbers (b : Builder) (v v' : View) : Prop where
  sorted : v'.table.generated.toList.Pairwise fun e e' => (Entry.generatedOrder e e').isLE
  mem_iff : ∀ e, e ∈ v'.table.generated.toList ↔ ∃ m ∈ v.mappings .generated, b.entry m = e
  mapping : ∀ m ∈ v.mappings .generated, v'.mapping (b.entry m) = m

namespace Renumbers

variable {b : Builder} {v v' : View} {a a' : Mapping}

/-- The generated positions stay. -/
theorem positions (h : Renumbers b v v') (q : Position) :
    q ∈ v.table.generated.toList.map Entry.generated ↔
      q ∈ v'.table.generated.toList.map Entry.generated := by
  have hpositions : q ∈ v'.table.generated.toList.map Entry.generated ↔
      q ∈ (v.mappings .generated).map Mapping.generated := by
    simp only [List.mem_map, h.mem_iff]
    constructor
    · rintro ⟨e, ⟨m, hm, rfl⟩, rfl⟩
      exact ⟨m, hm, rfl⟩
    · rintro ⟨m, hm, rfl⟩
      exact ⟨b.entry m, ⟨m, hm, rfl⟩, rfl⟩
  rw [hpositions, View.mappings, List.map_map]
  rfl

theorem inOrder (h : Renumbers b v v') : v'.table.InOrder :=
  h.sorted.imp isLE_of_compareLex

/-- What is found in the second view is the entry of a mapping with the smallest numbers at its
position. -/
theorem exists_leastAt (h : Renumbers b v v') {p : Position} {bias : Bias} {e : Entry}
    (hfind : v'.table.findGenerated? p bias = some e) :
    ∃ a, b.LeastAt (v.mappings .generated) a ∧ b.entry a = e := by
  rcases MappingTable.findGenerated?_cases h.sorted p bias with
    ⟨hnone, -⟩ | ⟨e', hfind', hnearest⟩
  · rw [hfind] at hnone
    cases hnone
  obtain rfl : e = e' := Option.some.inj (hfind.symm.trans hfind')
  obtain ⟨a, ha, rfl⟩ := (h.mem_iff e).mp hnearest.mem
  refine ⟨a, ⟨ha, fun c hc hsame => ?_⟩, rfl⟩
  have hcompare : compare (b.entry c).generated (b.entry a).generated = .eq :=
    Std.compare_eq_iff_eq.mpr hsame
  have horder : Entry.generatedOrder (b.entry a) (b.entry c) =
      Entry.originOrder (b.entry a) (b.entry c) :=
    Search.compareLex_of_eq (Std.OrientedCmp.eq_symm hcompare)
  rw [horder]
  exact hnearest.least _ ((h.mem_iff _).mpr ⟨c, hc, rfl⟩) hcompare

/-- One mapping has the smallest numbers at a position. -/
theorem leastAt_unique (h : Renumbers b v v') (ha : b.LeastAt (v.mappings .generated) a)
    (ha' : b.LeastAt (v.mappings .generated) a') (hsame : a'.generated = a.generated) : a' = a := by
  -- the entries come before each other, and entries that do are of the same mapping
  have heq : Entry.generatedOrder (b.entry a') (b.entry a) = .eq :=
    Std.OrientedCmp.isLE_antisymm (ha'.2 a ha.1 hsame.symm) (ha.2 a' ha'.1 hsame)
  have hmappings := View.mapping_eq_of_generatedOrder (v := v') heq
  rwa [h.mapping a' ha'.1, h.mapping a ha.1] at hmappings

end Renumbers

/-- A flat map without a root whose listed sources are in normal form can be built again and loaded,
and only the numbers change. -/
theorem exists_renumbers {r : Record} {f : FlatMap} (h : FlatMap.ofRecord r = .ok f)
    (hroot : f.root = none) {v : View} (hv : f.view = .ok v)
    (hnormal : ∀ a ∈ v.mappings .generated, ∀ s, a.source? = some s → Path.normalize s = s) :
    ∃ b f' v', ofMap (.flat f) = .ok b ∧ LoadedMap.ofRecord b.toRecord = .ok (.flat f') ∧
      f'.view = .ok v' ∧ Renumbers b v v' := by
  have hlisted := LoadedMap.mappings_flat hv .generated
  obtain ⟨b, hb, hmappings, -, hbroot⟩ := ofMap_eq_ok (.ofFlat h) hlisted
  have hsound : b.Sound := .ofMap hb
  obtain ⟨f', v', hf', -, hv', htable, hstored, hloaded, hroot'⟩ := hsound.exists_loaded_view
    (hsound.size_sources_le_of_flat h hv hmappings) (hsound.size_names_le_of_flat h hv hmappings)
  have hsame : b.mappings = v.mappings .generated := by
    have hnone : (LoadedMap.flat f).root = none := hroot
    rw [hmappings, hnone, funext relativized_none]
    exact List.map_id _
  have hvroot : v'.root = none := by
    have hnone : b.root = none := hbroot.trans hroot
    rw [hroot', hnone]
    rfl
  refine ⟨b, f', v', hb, hf', hv', ?_, ?_, ?_⟩
  · rw [htable]
    exact pairwise_mergeSort_isLE Entry.generatedOrder _
  · intro e
    rw [htable]
    show e ∈ Entry.sortGenerated (b.log.sorted.eraseReps.map b.entry) ↔ _
    rw [(Entry.perm_sortGenerated _).mem_iff, List.mem_map]
    simp only [mem_eraseReps_sorted, hsame]
  · intro m hm
    rw [hsound.mapping_loaded hstored hloaded (by rwa [hsame]), hvroot]
    -- without a root, names in normal form are stored as they are
    exact Mapping.mapSource_of_eq (hnormal m hm)

/-- **A map that was built again answers from the same positions.** Every flat map without a root
that a record describes, that can be listed and whose listed sources are in normal form can be built
again and loaded. To each query both maps answer nothing, or the first answers with the mapping that
it lists first at some position and the second with the one there whose numbers are smallest. The
answers are the same if the builder numbers no mapping at the position lower than the first. This is
about string tables whose slots have numbers of 32 bits. -/
theorem originalPositionFor_rebuilt {r : Record} {f : FlatMap} (h : FlatMap.ofRecord r = .ok f)
    (hroot : f.root = none) {listed : List Mapping}
    (hlisted : (LoadedMap.flat f).mappings .generated = .ok listed)
    (hnormal : ∀ a ∈ listed, ∀ s, a.source? = some s → Path.normalize s = s) :
    ∃ b f', ofMap (.flat f) = .ok b ∧ LoadedMap.ofRecord b.toRecord = .ok (.flat f') ∧
      ∀ p bias, ∃ answer answer', (LoadedMap.flat f).originalPositionFor p bias = .ok answer ∧
        (LoadedMap.flat f').originalPositionFor p bias = .ok answer' ∧
        (answer = {} ∧ answer' = {} ∨ ∃ a a', Mapping.FirstAt listed a ∧ b.LeastAt listed a' ∧
          a'.generated = a.generated ∧ answer = a.answer ∧ answer' = a'.answer ∧
          (b.LeastAt listed a → answer' = answer)) := by
  obtain ⟨v, hview, rfl⟩ := map_eq_ok_iff.mp hlisted
  have hv : f.view = .ok v := hview
  obtain ⟨b, f', v', hb, hf', hv', hrenumbers⟩ := exists_renumbers h hroot hv hnormal
  refine ⟨b, f', hb, hf', fun p bias => ⟨_, _, LoadedMap.originalPositionFor_flat hv p bias,
    LoadedMap.originalPositionFor_flat hv' p bias, ?_⟩⟩
  have hinOrder := LoadedMap.inOrder_of_ofRecord h hv
  have hposition := MappingTable.findGenerated?_of_positions hinOrder hrenumbers.inOrder
    hrenumbers.positions p bias
  rw [View.originalPositionFor_eq, View.originalPositionFor_eq]
  cases hfind : v.table.findGenerated? p bias with
  | none =>
      rw [hfind, Option.map_none, eq_comm, Option.map_eq_none_iff] at hposition
      exact Or.inl ⟨rfl, by rw [hposition]⟩
  | some e =>
      rw [hfind, Option.map_some, eq_comm, Option.map_eq_some_iff] at hposition
      obtain ⟨e', hfind', hsame⟩ := hposition
      obtain ⟨a', hleast, rfl⟩ := hrenumbers.exists_leastAt hfind'
      have hfirst := View.firstAt (MappingTable.find?_of_findGenerated? hinOrder hfind)
      simp only [hfind', hsame, hrenumbers.mapping a' hleast.1]
      by_cases hline : e.generated.line = p.line
      · simp only [if_pos hline]
        refine Or.inr ⟨v.mapping e, a', hfirst, hleast, hsame, rfl, rfl, fun ha => ?_⟩
        rw [hrenumbers.leastAt_unique ha hleast hsame]
      · simp only [if_neg hline]
        exact Or.inl ⟨trivial, trivial⟩

/-- Two mappings share a position, and the builder numbers their sources as the map does. -/
theorem originalPositionFor_rebuilt_tie :
    let r : Record :=
      { version := some 3, sources := some [some "a.js", some "b.js"]
        mappings := some "AAAA,ACAA" }
    let listed : List Mapping :=
      [{ generated := ⟨1, 0⟩, original := some ⟨"a.js", ⟨1, 0⟩⟩ },
        { generated := ⟨1, 0⟩, original := some ⟨"b.js", ⟨1, 0⟩⟩ }]
    ∃ f b f', FlatMap.ofRecord r = .ok f ∧ f.root = none ∧
      (LoadedMap.flat f).mappings .generated = .ok listed ∧
      (∀ a ∈ listed, ∀ s, a.source? = some s → Path.normalize s = s) ∧
      ofMap (.flat f) = .ok b ∧ LoadedMap.ofRecord b.toRecord = .ok (.flat f') ∧
      ∀ p bias, ∃ answer, (LoadedMap.flat f).originalPositionFor p bias = .ok answer ∧
        (LoadedMap.flat f').originalPositionFor p bias = .ok answer := by
  intro r listed
  have hread : (FlatMap.ofRecord r).bind (fun f => (ofMap (.flat f)).map fun b =>
      ((LoadedMap.flat f).mappings .generated, listed.map b.entry)) =
        .ok (.ok listed,
          [{ generated := ⟨1, 0⟩, origin := some { place := ⟨0, ⟨1, 0⟩⟩ } },
            { generated := ⟨1, 0⟩, origin := some { place := ⟨1, ⟨1, 0⟩⟩ } }]) := by
    cbv
  obtain ⟨f, hf⟩ : ∃ f, FlatMap.ofRecord r = .ok f := ⟨_, rfl⟩
  rw [hf] at hread
  have hroot : f.root = none := by simp [(FlatMap.loads_of_ofRecord hf).root, r]
  obtain ⟨b₁, hb₁, hparts⟩ := map_eq_ok_iff.mp hread
  obtain ⟨hlisted, hentries⟩ := Prod.mk.inj hparts
  have hnormal : ∀ a ∈ listed, ∀ s, a.source? = some s → Path.normalize s = s := by
    have hsource : Path.normalize "a.js" = "a.js" := by decide +kernel
    have hsource' : Path.normalize "b.js" = "b.js" := by decide +kernel
    simp [listed, Mapping.source?, hsource, hsource']
  obtain ⟨b, f', hb, hf', hall⟩ := originalPositionFor_rebuilt hf hroot hlisted hnormal
  obtain rfl : b₁ = b := Except.ok.inj (hb₁.symm.trans hb)
  refine ⟨f, b₁, f', hf, hroot, hlisted, hnormal, hb, hf', fun p bias => ?_⟩
  obtain ⟨answer, answer', hanswer, hanswer', hcases⟩ := hall p bias
  rcases hcases with ⟨rfl, rfl⟩ | ⟨a, a', hfirst, -, -, -, -, hkeeps⟩
  · exact ⟨_, hanswer, hanswer'⟩
  · simp only [listed, List.map_cons, List.map_nil, List.cons.injEq, and_true] at hentries
    -- all mappings are at one position, so the first there is the first of them
    have hposition : ∀ c ∈ listed, c.generated = ⟨1, 0⟩ := by simp [listed]
    have ha : a ∈ listed := List.mem_of_find?_eq_some hfirst
    rw [Mapping.FirstAt, hposition a ha] at hfirst
    obtain rfl := Option.some.inj hfirst
    refine ⟨answer, hanswer, ?_⟩
    rw [hanswer', hkeeps ⟨ha, fun c hc _ => ?_⟩]
    rcases List.mem_pair.mp hc with rfl | rfl
    · rw [hentries.1]
      decide
    · rw [hentries.1, hentries.2]
      decide

/-- Where the second mapping of a shared position has a source that was used before, it comes first
when the map has been built again. -/
theorem originalPositionFor_renumbered :
    let r : Record :=
      { version := some 3, sources := some [some "a.js", some "b.js"]
        mappings := some "ACAA,KDAA,ACAA" }
    ∃ f b f', FlatMap.ofRecord r = .ok f ∧ f.root = none ∧ f.sources.toList = ["a.js", "b.js"] ∧
      (∀ s ∈ f.sources.toList, Path.normalize s = s) ∧
      (LoadedMap.flat f).mappings .generated = .ok
        [{ generated := ⟨1, 0⟩, original := some ⟨"b.js", ⟨1, 0⟩⟩ },
          { generated := ⟨1, 5⟩, original := some ⟨"a.js", ⟨1, 0⟩⟩ },
          { generated := ⟨1, 5⟩, original := some ⟨"b.js", ⟨1, 0⟩⟩ }] ∧
      ofMap (.flat f) = .ok b ∧ LoadedMap.ofRecord b.toRecord = .ok (.flat f') ∧
      (LoadedMap.flat f).originalPositionFor ⟨1, 5⟩ .greatestLowerBound =
        .ok { source := some "a.js", line := some 1, column := some 0 } ∧
      (LoadedMap.flat f').originalPositionFor ⟨1, 5⟩ .greatestLowerBound =
        .ok { source := some "b.js", line := some 1, column := some 0 } := by
  intro r
  have hread : (FlatMap.ofRecord r).bind (fun f => (ofMap (.flat f)).bind fun b =>
      (LoadedMap.ofRecord b.toRecord).map fun m => ((LoadedMap.flat f).mappings .generated,
        (LoadedMap.flat f).originalPositionFor ⟨1, 5⟩ .greatestLowerBound,
        m.originalPositionFor ⟨1, 5⟩ .greatestLowerBound)) =
      .ok (.ok
        [{ generated := ⟨1, 0⟩, original := some ⟨"b.js", ⟨1, 0⟩⟩ },
          { generated := ⟨1, 5⟩, original := some ⟨"a.js", ⟨1, 0⟩⟩ },
          { generated := ⟨1, 5⟩, original := some ⟨"b.js", ⟨1, 0⟩⟩ }],
        .ok { source := some "a.js", line := some 1, column := some 0 },
        .ok { source := some "b.js", line := some 1, column := some 0 }) := by
    cbv
  obtain ⟨f, hf⟩ : ∃ f, FlatMap.ofRecord r = .ok f := ⟨_, rfl⟩
  rw [hf] at hread
  have hloads := FlatMap.loads_of_ofRecord hf
  have hroot : f.root = none := by simp [hloads.root, r]
  have hsource : Path.normalize "a.js" = "a.js" := by decide +kernel
  have hsource' : Path.normalize "b.js" = "b.js" := by decide +kernel
  have hsources : f.sources.toList = ["a.js", "b.js"] := by
    simp [hloads.sources, hroot, r, FlatMap.storedSource, hsource, hsource']
  cases hb : ofMap (.flat f) with
  | error e =>
      simp only [Except.bind, hb] at hread
      cases hread
  | ok b =>
      obtain ⟨f', hf', -⟩ := b.ofRecord_toRecord
      simp only [Except.bind, hb, hf', Except.map] at hread
      obtain ⟨hlisted, hanswers⟩ := Prod.mk.inj (Except.ok.inj hread)
      obtain ⟨hanswer, hanswer'⟩ := Prod.mk.inj hanswers
      refine ⟨f, b, f', hf, hroot, hsources, ?_, hlisted, hb, hf', hanswer, hanswer'⟩
      rw [hsources]
      simp [hsource, hsource']

end Builder

end SourceMap

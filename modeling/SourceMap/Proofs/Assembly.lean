import Mathlib
import SourceMap.Proofs.Covering
import SourceMap.Proofs.Nearest
import SourceMap.Proofs.Reachable

/-!
# Assembled maps

The merged view of an index map is in order, keeps every source in one slot under its full name,
and lists what the sections list, in the coordinates of the file. A map of which this holds at every
depth is assembled. Every map that can be made is (`Reachable.assembled`): loading assembles a map,
and computing spans changes nothing that a map lists (`mappings_computeSpans`).
-/

set_option autoImplicit false

namespace SourceMap

/-! ## Spans and listings -/

namespace Entry

theorem withSpans_cons (e : Entry) (es : List Entry) :
    withSpans (e :: es) = e.spanTo es.head? :: withSpans es := by
  cases es with
  | nil => rfl
  | cons e' es => simp [withSpans]

/-- The span of an entry ends before the entry after it. -/
theorem getElem?_withSpans (es : List Entry) :
    ∀ i : Nat, (withSpans es)[i]? = es[i]?.map (·.spanTo es[i + 1]?) := by
  induction es with
  | nil => exact fun i => rfl
  | cons e es ih =>
      intro i
      rw [withSpans_cons]
      cases i with
      | zero => simp [List.head?_eq_getElem?]
      | succ i => simpa using ih i

/-- An entry without its span. -/
def bare (e : Entry) : Entry := { e with lastColumn := none }

/-- Computing spans changes nothing else. -/
theorem map_bare_withSpans (es : List Entry) : (withSpans es).map bare = es.map bare := by
  apply List.ext_getElem?
  intro i
  rw [List.getElem?_map, getElem?_withSpans, Option.map_map, List.getElem?_map]
  rfl

/-- Spans are not looked at when entries are put in original order. -/
theorem map_bare_sortOriginal (es : List Entry) :
    (sortOriginal es).map bare = sortOriginal (es.map bare) := by
  have hsort : (sortOriginal es).map bare =
      ((es.filter fun e => e.origin.isSome).map bare).mergeSort fun a b =>
        (originalOrder a b).isLE := List.map_mergeSort fun _ _ _ _ => rfl
  rw [hsort, sortOriginal, List.filter_map]
  rfl

end Entry

namespace MappingTable

theorem map_bare_generated (t : MappingTable) :
    t.withSpans.generated.toList.map Entry.bare = t.generated.toList.map Entry.bare :=
  Entry.map_bare_withSpans t.generated.toList

theorem map_bare_original (t : MappingTable) :
    t.withSpans.original.toList.map Entry.bare = t.original.toList.map Entry.bare := by
  rw [t.withSpans.original_eq, t.original_eq, List.toList_toArray, List.toList_toArray,
    Entry.map_bare_sortOriginal, Entry.map_bare_sortOriginal, t.map_bare_generated]

end MappingTable

namespace View

/-- Spans are not part of a mapping. -/
theorem mappings_withSpans (v : View) (order : Order) :
    v.withSpans.mappings order = v.mappings order := by
  have hmap {es es' : List Entry} (h : es'.map Entry.bare = es.map Entry.bare) :
      es'.map v.mapping = es.map v.mapping := by
    have h' := congrArg (List.map v.mapping) h
    rwa [List.map_map, List.map_map] at h'
  cases order with
  | generated => exact hmap v.table.map_bare_generated
  | original => exact hmap v.table.map_bare_original

/-- Spans change no generated position. -/
theorem inOrder_withSpans {v : View} (h : v.table.InOrder) : v.withSpans.table.InOrder := by
  have hpositions (w : View) : w.table.InOrder ↔ Mapping.InOrder (w.mappings .generated) := by
    rw [MappingTable.InOrder, Mapping.InOrder, mappings, List.pairwise_map]
    rfl
  rw [hpositions, mappings_withSpans]
  exact (hpositions v).mp h

end View

/-- The view of a flat map with spans is its view with spans. -/
theorem FlatMap.view_withSpans (f : FlatMap) : f.withSpans.view = f.view.map View.withSpans := by
  rw [FlatMap.view, FlatMap.view, FlatMap.withSpans]
  cases f.table with
  | error e => rfl
  | ok t => rfl

/-! ## Merged views -/

namespace Merge

/-- No source of a merge has two slots. -/
theorem nodup_sources_add {g : Merge} (h : g.sources.toList.Nodup) (p : Position) (m : Mapping) :
    (g.add p m).sources.toList.Nodup := by
  obtain ⟨generated, _ | o, name⟩ := m
  · exact h
  · exact StringTable.nodup_insert h o.source

/-- What every mapping that is added keeps is kept by a section. -/
theorem addSection_invariant {p : Merge → Prop}
    (hadd : ∀ {g}, p g → ∀ position m, p (g.add position m)) {index : Nat} {offset : Position}
    {ms : List Mapping} :
    ∀ {g g' : Merge}, p g → addSection index offset g ms = .ok g' → p g' := by
  induction ms with
  | nil =>
      intro g g' hg h
      cases h
      exact hg
  | cons m ms ih =>
      intro g g' hg h
      rw [addSection] at h
      split at h
      · cases h
      · rename_i position _
        exact ih (hadd hg position m) h

/-- It is kept by all sections. -/
theorem addSections_invariant {p : Merge → Prop}
    (hadd : ∀ {g}, p g → ∀ position m, p (g.add position m))
    {sections : List (Position × Except Error (List Mapping))} :
    ∀ {index : Nat} {g g' : Merge}, p g → addSections index g sections = .ok g' → p g' := by
  induction sections with
  | nil =>
      intro index g g' hg h
      cases h
      exact hg
  | cons s sections ih =>
      intro index g g' hg h
      obtain ⟨offset, _ | ms⟩ := s
      · cases h
      · rw [addSections] at h
        split at h
        · cases h
        · rename_i g₁ hsection
          exact ih (addSection_invariant hadd hg hsection) h

end Merge

/-- In a merged view every source is looked up in its own slot. -/
theorem View.knows_of_nodup {v : View} (hroot : v.root = none) (hnodup : v.sources.toList.Nodup)
    (source : String) : v.Knows source := by
  intro slot hslot hsource
  rw [View.sourceSlot?, hroot]
  apply StringTable.indexOf?_of_get? hnodup
  have hlt : slot < v.sources.toList.length := hslot
  rw [View.sourceAt, hroot] at hsource
  rw [StringTable.get?_eq, List.getElem?_eq_getElem hlt] at hsource ⊢
  exact congrArg some hsource

namespace LoadedMap

/-- Whether a view is what sections are merged into, with or without spans. -/
structure Merged (sections : List (Placed LoadedMap)) (v : View) : Prop where
  inOrder : v.table.InOrder
  root : v.root = none
  nodup : v.sources.toList.Nodup
  gathers : Gathers sections (v.mappings .generated)

theorem Merged.of_merge {sections : List (Placed LoadedMap)}
    (hready : ∀ part ∈ sections.map given, Merge.Ready part) {v : View}
    (h : View.merge (sections.map given) = .ok v) : Merged sections v := by
  obtain ⟨-, ⟨parts, hparts, hperm⟩, -⟩ := View.merge_eq_ok hready h
  rw [List.forall₂_map_left_iff] at hparts
  obtain ⟨g, hadd, rfl⟩ := map_eq_ok_iff.mp h
  exact
    { inOrder := MappingTable.inOrder_ofList g.entries.reverse
      root := rfl
      nodup := Merge.addSections_invariant (p := fun g => g.sources.toList.Nodup)
        Merge.nodup_sources_add (g := {}) List.nodup_nil hadd
      gathers := ⟨parts, hparts, hperm⟩ }

/-- Sections at the same places that list the same are merged into the same views. -/
theorem Merged.congr {sections sections' : List (Placed LoadedMap)} {v : View}
    (h : Merged sections v)
    (hsame : List.Forall₂ (fun s s' => given s' = given s) sections sections') :
    Merged sections' v := by
  obtain ⟨parts, hparts, hperm⟩ := h.gathers
  rw [← List.forall₂_map_left_iff, ← map_eq_of_forall₂ id hsame,
    List.forall₂_map_left_iff] at hparts
  exact { h with gathers := ⟨parts, hparts, hperm⟩ }

theorem Merged.withSpans {sections : List (Placed LoadedMap)} {v : View} (h : Merged sections v) :
    Merged sections v.withSpans where
  inOrder := View.inOrder_withSpans h.inOrder
  root := h.root
  nodup := h.nodup
  gathers := by
    rw [View.mappings_withSpans]
    exact h.gathers

/-! ## Assembled maps -/

/-- Whether the tables of a map are in order and what it lists is what its sections list, at every
depth. -/
inductive Assembled : LoadedMap → Prop
  | flat {f : FlatMap} : (∀ v, f.view = .ok v → v.table.InOrder) → Assembled (.flat f)
  | index {file : Option String} {sections : List (Placed LoadedMap)}
      {merged : Except Error View} : (∀ s ∈ sections, s.map.Assembled) →
      (∀ v, merged = .ok v → Merged sections v) → Assembled (.index file sections merged)

theorem Assembled.inOrder {m : LoadedMap} (h : m.Assembled) {v : View} (hv : m.view = .ok v) :
    v.table.InOrder := by
  cases h with
  | flat hview => exact hview v hv
  | index _ hmerged => exact (hmerged v hv).inOrder

theorem Assembled.section {m : LoadedMap} {sections : List (Placed LoadedMap)} (h : m.Assembled)
    (hsections : m.sections? = some sections) {s : Placed LoadedMap} (hs : s ∈ sections) :
    s.map.Assembled := by
  cases h with
  | flat _ => cases hsections
  | index hassembled _ =>
      cases hsections
      exact hassembled s hs

/-- What an assembled index map lists is what its sections list. -/
theorem Assembled.merged {m : LoadedMap} {sections : List (Placed LoadedMap)} (h : m.Assembled)
    (hsections : m.sections? = some sections) {v : View} (hv : m.view = .ok v) :
    Merged sections v := by
  cases h with
  | flat _ => cases hsections
  | index _ hmerged =>
      cases hsections
      exact hmerged v hv

/-- **Every map that a record describes is assembled.** -/
theorem Assembled.ofRecord (r : Record) :
    ∀ {m : LoadedMap}, LoadedMap.ofRecord r = .ok m → m.Assembled := by
  induction r using Record.induction with
  | h r ih =>
      intro m h
      rcases ofRecord_cases h with ⟨f, r', hf, rfl⟩ | ⟨ss, sections, hss, hplaced, rfl⟩
      · exact .flat fun v hv => inOrder_of_ofRecord hf hv
      · have hplaces := places_of_placeAll hplaced
        refine .index ?_ fun v hv => Merged.of_merge (ready_of_places hplaces) hv
        intro s hs
        obtain ⟨section', hmem, hplace⟩ := exists_of_forall₂_right hplaces s hs
        obtain ⟨r', hr', hmap⟩ := hplace.map
        exact ih ss hss section' hmem r' hr' hmap

/-! ## Computing spans -/

/-- Where spans can be computed, they are computed in every section. -/
theorem forall₂_of_computeSpansIn {sections : List (Placed LoadedMap)} :
    ∀ {index : Nat} {sections' : List (Placed LoadedMap)},
      computeSpansIn index sections = (.ok (), sections') →
        List.Forall₂ (fun s s' => s'.offset = s.offset ∧
          s.map.computeSpans = (.ok (), s'.map)) sections sections' := by
  induction sections with
  | nil =>
      intro index sections' h
      cases h
      exact .nil
  | cons s sections ih =>
      intro index sections' h
      obtain ⟨offset, m⟩ := s
      rw [computeSpansIn] at h
      cases hspans : m.computeSpans with
      | mk outcome m' =>
          rw [hspans] at h
          cases outcome with
          | error e => cases h
          | ok =>
              cases hrest : computeSpansIn (index + 1) sections with
              | mk outcome' rest =>
                  rw [hrest] at h
                  cases h
                  exact .cons ⟨rfl, hspans⟩ (ih hrest)

/-- **Computing spans changes nothing that a map lists**, also where it fails. -/
theorem mappings_computeSpans (m : LoadedMap) :
    m.computeSpans.2.mappings .generated = m.mappings .generated := by
  have hview (x : Except Error View) : (x.map View.withSpans).map (·.mappings .generated) =
      x.map (·.mappings .generated) := by
    cases x with
    | error e => rfl
    | ok v => exact congrArg Except.ok (v.mappings_withSpans .generated)
  cases m with
  | flat f =>
      show f.withSpans.view.map (·.mappings .generated) = f.view.map (·.mappings .generated)
      rw [FlatMap.view_withSpans, hview]
  | index file sections merged =>
      rw [computeSpans]
      split
      · rfl
      · exact hview merged

/-- Computing spans keeps what the sections are merged into. -/
theorem forall₂_given_computeSpansIn (sections : List (Placed LoadedMap)) (index : Nat) :
    List.Forall₂ (fun s s' => given s' = given s) sections (computeSpansIn index sections).2 := by
  refine (forall₂_computeSpansIn sections index).imp ?_
  rintro s s' ⟨hoffset, hmap | hmap⟩
  · rw [given, given, hoffset, hmap]
  · rw [given, given, hoffset, hmap, mappings_computeSpans]

/-- **Computing spans keeps a map assembled**, also where it fails. -/
theorem Assembled.computeSpans {m : LoadedMap} (h : m.Assembled) : m.computeSpans.2.Assembled := by
  induction h with
  | @flat f hview =>
      rw [LoadedMap.computeSpans]
      refine .flat fun v hv => ?_
      rw [FlatMap.view_withSpans] at hv
      obtain ⟨v₀, hv₀, rfl⟩ := map_eq_ok_iff.mp hv
      exact View.inOrder_withSpans (hview v₀ hv₀)
  | @index file sections merged hsections hmerged ih =>
      have hsame := forall₂_given_computeSpansIn sections 0
      have hsections' : ∀ s ∈ (computeSpansIn 0 sections).2, s.map.Assembled := by
        intro s hs
        obtain ⟨s₀, hs₀, -, hmap | hmap⟩ :=
          exists_of_forall₂_right (forall₂_computeSpansIn sections 0) s hs
        · rw [hmap]
          exact hsections s₀ hs₀
        · rw [hmap]
          exact ih s₀ hs₀
      -- where a section fails the merged view stays as it is
      rw [LoadedMap.computeSpans]
      split
      · rename_i e sections' hspans
        rw [hspans] at hsame hsections'
        exact .index hsections' fun v hv => (hmerged v hv).congr hsame
      · rename_i sections' hspans
        rw [hspans] at hsame hsections'
        refine .index hsections' fun v hv => ?_
        obtain ⟨v₀, hv₀, rfl⟩ := map_eq_ok_iff.mp hv
        exact ((hmerged v₀ hv₀).congr hsame).withSpans

/-- The map of a builder is assembled. -/
theorem Assembled.toMap (b : Builder) : b.toMap.Assembled := by
  refine .flat fun v hv => ?_
  obtain ⟨t, ht, rfl⟩ := map_eq_ok_iff.mp hv
  cases ht
  exact MappingTable.inOrder_ofList (b.mappings.map b.entry)

/-- **Every map that can be made is assembled.** -/
theorem Reachable.assembled {m : LoadedMap} (h : m.Reachable) : m.Assembled :=
  h.induction (fun hm => .ofRecord _ hm) .toMap .computeSpans
    fun hsections hs hm => hm.section hsections hs

end LoadedMap

end SourceMap

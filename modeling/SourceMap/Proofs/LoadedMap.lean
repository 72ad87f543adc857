import Mathlib
import SourceMap.LoadedMap
import SourceMap.Proofs.FlatMap
import SourceMap.Proofs.Merge
import SourceMap.Proofs.Text

/-!
# Sound maps

A loaded map is sound when the views of it and of all its sections are. Every map that a record
describes is sound (`Sound.ofRecord`), and computing spans keeps it so (`Sound.computeSpans`). What
a sound map lists has no fault (`Sound.fault?_eq_none`), and what it answers is nothing or a whole
place (`Sound.complete`).
-/

set_option autoImplicit false

namespace SourceMap

/-! ## Records -/

/-- What holds of a record if it holds of the records of its sections holds of every record. -/
theorem Record.induction {p : Record → Prop}
    (h : ∀ r : Record, (∀ ss, r.sections = some ss → ∀ s ∈ ss, ∀ r', s.map = some r' → p r') →
      p r) : ∀ r, p r := by
  intro r
  refine h r ?_
  obtain ⟨version, file, sourceRoot, sources, contents, names, mappings, _ | ss⟩ := r
  · rintro ss ⟨⟩
  · rintro ss ⟨⟩ s hs r' hr'
    exact Record.induction h r'
termination_by r => sizeOf r
decreasing_by
  have hs' := List.sizeOf_lt_of_mem hs
  obtain ⟨offset, map, url⟩ := s
  cases hr'
  simp only [Section.mk.sizeOf_spec, Option.some.sizeOf_spec] at hs'
  simp only [Record.mk.sizeOf_spec, Option.some.sizeOf_spec]
  omega

namespace LoadedMap

/-- Whether `s` is the section of a loaded map that a section of a record describes. Its line counts
from 1, while that of the record counts from 0. -/
structure Places (section' : Section Record) (s : Placed LoadedMap) : Prop where
  line : s.offset.line.toNat = section'.offset.line.toNat + 1
  column : s.offset.column = section'.offset.column
  map : ∃ r, section'.map = some r ∧ ofRecord r = .ok s.map

/-- The first section of some that are loaded has a map and is not before `last`, and the others are
loaded after it. -/
theorem placeAll_cons {s : Section Record} {ss : List (Section Record)} {index : Nat}
    {last : Offset} {sections : List (Placed LoadedMap)}
    (h : placeAll index last (s :: ss) = .ok sections) :
    ∃ placed rest, Places s placed ∧ (compare last s.offset).isLE ∧
      placeAll (index + 1) s.offset ss = .ok rest ∧ sections = placed :: rest := by
  obtain ⟨offset, _ | r, url⟩ := s
  · rw [placeAll] at h
    split at h
    · cases h
    split at h
    · cases h
    · cases h
  · rw [placeAll] at h
    -- a section by address or out of order is not loaded
    split at h
    · cases h
    split at h
    · cases h
    rename_i hafter
    split at h
    · cases h
    rename_i m hm
    -- the line of the offset has to be a coordinate when it counts from 1
    split at h
    · cases h
    rename_i line hline
    split at h
    · cases h
    rename_i rest hrest
    cases h
    refine ⟨_, rest, ⟨?_, rfl, r, rfl, hm⟩, ?_, hrest, rfl⟩
    · exact Coordinate.add?_eq_some_iff.mp hline
    · have hswap : compare last offset = (compare offset last).swap := Std.OrientedCmp.eq_swap
      rw [hswap]
      cases hcompare : compare offset last with
      | lt => simp [hcompare] at hafter
      | eq => rfl
      | gt => rfl

/-- The sections of a record are loaded one by one. -/
theorem places_of_placeAll {ss : List (Section Record)} :
    ∀ {index : Nat} {last : Offset} {sections : List (Placed LoadedMap)},
      placeAll index last ss = .ok sections → List.Forall₂ Places ss sections := by
  induction ss with
  | nil =>
      intro index last sections h
      cases h
      exact .nil
  | cons s ss ih =>
      intro index last sections h
      obtain ⟨placed, rest, hplaces, -, hrest, rfl⟩ := placeAll_cons h
      exact .cons hplaces (ih hrest)

/-- A record describes a flat map or the index map of its sections. -/
theorem ofRecord_cases {r : Record} {m : LoadedMap} (h : ofRecord r = .ok m) :
    (∃ f r', FlatMap.ofRecord r' = .ok f ∧ m = .flat f) ∨
      ∃ ss sections, r.sections = some ss ∧ placeAll 0 .zero ss = .ok sections ∧
        m = ofSections r.file sections := by
  obtain ⟨version, file, sourceRoot, sources, contents, names, mappings, _ | ss⟩ := r
  · rw [ofRecord] at h
    split at h
    · obtain ⟨f, hf, rfl⟩ := map_eq_ok_iff.mp h
      exact Or.inl ⟨f, _, hf, rfl⟩
    · cases h
  · rw [ofRecord] at h
    split at h
    · obtain ⟨sections, hsections, rfl⟩ := map_eq_ok_iff.mp h
      exact Or.inr ⟨ss, sections, rfl, hsections, rfl⟩
    · cases h

/-! ## Flat maps -/

theorem mappings_flat {f : FlatMap} {v : View} (hv : f.view = .ok v) (order : Order) :
    (LoadedMap.flat f).mappings order = .ok (v.mappings order) := by
  rw [mappings, view, hv, ok_map]

/-- A flat map lists the entries that its text spells, by the names in its tables. -/
theorem exists_mappings_of_decode {r : Record} {f : FlatMap} (h : FlatMap.Loads r f)
    {es : List Entry} (hes : (MappingTable.decode (r.mappings.getD "")
      { sources := (r.sources.getD []).length, names := (r.names.getD []).length }).map
        (·.generated.toList) = .ok es) :
    ∃ v : View, v.sources.toList = (r.sources.getD []).map (FlatMap.storedSource f.root) ∧
      v.names.toList = r.names.getD [] ∧ v.root = f.root ∧
      (LoadedMap.flat f).mappings .generated = .ok (es.map v.mapping) := by
  obtain ⟨t, ht, rfl⟩ := map_eq_ok_iff.mp hes
  have htable : f.table = .ok t := by
    rw [h.table, StringTable.size_eq, StringTable.size_eq, h.sources, h.names, List.length_map, ht]
  have hv : f.view =
      .ok { table := t, sources := f.sources, names := f.names, root := f.root } := by
    rw [FlatMap.view, htable, ok_map]
  exact ⟨_, h.sources, h.names, rfl, mappings_flat hv .generated⟩

theorem generatedPositionFor_flat {f : FlatMap} {v : View} (hv : f.view = .ok v)
    (source : String) (p : Position) (bias : Bias) :
    (LoadedMap.flat f).generatedPositionFor source p bias =
      .ok (v.generatedPositionFor source p bias) := by
  rw [generatedPositionFor, hv, ok_map]

theorem originalPositionFor_flat {f : FlatMap} {v : View} (hv : f.view = .ok v) (p : Position)
    (bias : Bias) : (LoadedMap.flat f).originalPositionFor p bias =
      .ok (v.originalPositionFor p bias) := by
  rw [originalPositionFor, hv, ok_map]

/-! ## Soundness -/

/-- Whether the views of a map and of all its sections are sound. -/
inductive Sound : LoadedMap → Prop
  | flat {f : FlatMap} : (∀ v, f.view = .ok v → v.Sound) → Sound (.flat f)
  | index {file : Option String} {sections : List (Placed LoadedMap)}
      {merged : Except Error View} : (∀ s ∈ sections, s.map.Sound) →
      (∀ v, merged = .ok v → v.Sound) → Sound (.index file sections merged)

theorem Sound.view {m : LoadedMap} (h : m.Sound) {v : View} (hv : m.view = .ok v) : v.Sound := by
  cases h with
  | flat hview => exact hview v hv
  | index _ hmerged => exact hmerged v hv

/-- What a sound map lists has no fault. -/
theorem Sound.fault?_eq_none {m : LoadedMap} (h : m.Sound) {ms : List Mapping}
    (hms : m.mappings .generated = .ok ms) : ∀ a ∈ ms, a.fault? = none := by
  obtain ⟨v, hv, rfl⟩ := map_eq_ok_iff.mp hms
  intro a ha
  exact (h.view hv).fault?_eq_none ha

/-- The sections of a map are ready to be merged. -/
theorem Sound.ready {s : Placed LoadedMap} (h : s.map.Sound) (hline : s.offset.line ≠ 0) :
    Merge.Ready (s.offset, s.map.mappings .generated) :=
  ⟨hline, fun _ hms => h.fault?_eq_none hms⟩

theorem Places.line_ne_zero {section' : Section Record} {s : Placed LoadedMap}
    (h : Places section' s) : s.offset.line ≠ 0 := by
  intro hzero
  have hline := h.line
  rw [hzero, UInt32.toNat_zero] at hline
  omega

theorem Sound.ofFlat {r : Record} {f : FlatMap} (h : FlatMap.ofRecord r = .ok f) :
    Sound (.flat f) := by
  refine .flat fun v hv => ?_
  have htable := (FlatMap.loads_of_ofRecord h).table
  obtain ⟨t, ht, rfl⟩ := map_eq_ok_iff.mp hv
  rw [htable] at ht
  intro e he
  exact MappingTable.fits_of_decode ht he

/-- **Every map that a record describes is sound.** -/
theorem Sound.ofRecord (r : Record) :
    ∀ {m : LoadedMap}, LoadedMap.ofRecord r = .ok m → m.Sound := by
  induction r using Record.induction with
  | h r ih =>
      intro m h
      rcases ofRecord_cases h with ⟨f, r', hf, rfl⟩ | ⟨ss, sections, hss, hplaced, rfl⟩
      · exact .ofFlat hf
      · have hplaces := places_of_placeAll hplaced
        have hsections : ∀ s ∈ sections, s.map.Sound ∧ s.offset.line ≠ 0 := by
          intro s hs
          obtain ⟨section', hmem, hplace⟩ := exists_of_forall₂_right hplaces s hs
          obtain ⟨r', hr', hmap⟩ := hplace.map
          exact ⟨ih ss hss section' hmem r' hr' hmap, hplace.line_ne_zero⟩
        -- the sections are sound and start on lines from 1 on, so they can be merged
        refine .index (fun s hs => (hsections s hs).1) fun v hv => ?_
        refine (View.merge_eq_ok ?_ hv).1
        intro part hpart
        obtain ⟨s, hs, rfl⟩ := List.mem_map.mp hpart
        exact (hsections s hs).1.ready (hsections s hs).2

/-! ## Answers -/

/-- A query that goes to the section at an index is answered by this section. -/
theorem originalPositionIn_eq (p : Position) (bias : Bias) (sections : List (Placed LoadedMap)) :
    ∀ i : Nat, originalPositionIn p bias i sections = match sections[i]? with
      | none => .ok {}
      | some s => s.map.originalPositionFor (s.offset.toLocal p) bias := by
  induction sections with
  | nil =>
      intro i
      rw [originalPositionIn]
      rfl
  | cons s sections ih =>
      intro i
      obtain ⟨offset, m⟩ := s
      cases i with
      | zero =>
          rw [originalPositionIn]
          rfl
      | succ i =>
          rw [originalPositionIn, ih i]
          rfl

/-- **A sound map answers with whole places.** -/
theorem Sound.complete {m : LoadedMap} (h : m.Sound) (bias : Bias) :
    ∀ {p : Position} {answer : OriginalPosition},
      m.originalPositionFor p bias = .ok answer → answer.Complete := by
  induction h with
  | flat hview =>
      intro p answer hanswer
      rw [originalPositionFor] at hanswer
      obtain ⟨v, hv, rfl⟩ := map_eq_ok_iff.mp hanswer
      exact (hview v hv).complete_originalPositionFor p bias
  | @index file sections merged _ _ ih =>
      intro p answer hanswer
      rw [originalPositionFor] at hanswer
      split at hanswer
      · cases hanswer
        exact OriginalPosition.complete_empty
      · rename_i i _
        split at hanswer
        · cases hanswer
        · rename_i found hfound
          cases hanswer
          rw [originalPositionIn_eq] at hfound
          split at hfound
          · cases hfound
            exact OriginalPosition.complete_empty
          · rename_i s hs
            exact ih s (List.mem_of_getElem? hs) hfound

/-! ## Spans -/

/-- Each section stays where it is, and as it is or with its spans computed. -/
theorem forall₂_computeSpansIn (sections : List (Placed LoadedMap)) : ∀ index : Nat,
    List.Forall₂ (fun s s' => s'.offset = s.offset ∧
      (s'.map = s.map ∨ s'.map = s.map.computeSpans.2)) sections
      (computeSpansIn index sections).2 := by
  induction sections with
  | nil => exact fun index => .nil
  | cons s sections ih =>
      intro index
      obtain ⟨offset, m⟩ := s
      rw [computeSpansIn]
      cases hspans : m.computeSpans with
      | mk outcome m' =>
          have hhead : m' = m.computeSpans.2 := by rw [hspans]
          cases outcome with
          | error e =>
              -- the sections after the one that fails are not touched
              refine .cons ⟨rfl, Or.inr hhead⟩ ?_
              exact List.forall₂_same.mpr fun s _ => ⟨rfl, Or.inl rfl⟩
          | ok => exact .cons ⟨rfl, Or.inr hhead⟩ (ih (index + 1))

/-- **Computing spans keeps a map sound**, also where it fails. -/
theorem Sound.computeSpans {m : LoadedMap} (h : m.Sound) : m.computeSpans.2.Sound := by
  induction h with
  | @flat f hview =>
      rw [LoadedMap.computeSpans]
      refine .flat fun v hv => ?_
      obtain ⟨t, ht, rfl⟩ := map_eq_ok_iff.mp hv
      obtain ⟨t₀, ht₀, rfl⟩ := map_eq_ok_iff.mp ht
      have hv₀ := hview { table := t₀, sources := f.sources, names := f.names, root := f.root }
        (map_eq_ok_iff.mpr ⟨t₀, ht₀, rfl⟩)
      exact hv₀.withSpans
  | @index file sections merged hsections hmerged ih =>
      have hsections' : ∀ s ∈ (computeSpansIn 0 sections).2, s.map.Sound := by
        intro s hs
        obtain ⟨s₀, hs₀, -, hmap | hmap⟩ :=
          exists_of_forall₂_right (forall₂_computeSpansIn sections 0) s hs
        · rw [hmap]
          exact hsections s₀ hs₀
        · rw [hmap]
          exact ih s₀ hs₀
      -- where a section fails the merged view stays as it is
      rw [LoadedMap.computeSpans]
      split
      · rename_i e sections' hspans
        rw [hspans] at hsections'
        exact .index hsections' hmerged
      · rename_i sections' hspans
        rw [hspans] at hsections'
        refine .index hsections' fun v hv => ?_
        obtain ⟨v₀, hv₀, rfl⟩ := map_eq_ok_iff.mp hv
        exact (hmerged v₀ hv₀).withSpans

end LoadedMap

end SourceMap

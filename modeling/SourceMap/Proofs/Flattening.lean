import Mathlib
import SourceMap.Proofs.LoadedMap

/-!
# Index maps flattened

The mappings of an index map are those of its sections, in the coordinates of the file: none is
lost, and none is added (`mappings_index`). The sections may be index maps themselves.
-/

set_option autoImplicit false

namespace SourceMap.LoadedMap

open Merge

/-- A section as it is merged: its offset and what it lists. -/
def given (s : Placed LoadedMap) : Position × Except Error (List Mapping) :=
  (s.offset, s.map.mappings .generated)

/-- The sections that a record describes can be merged. -/
theorem ready_of_places {ss : List (Section Record)} {sections : List (Placed LoadedMap)}
    (h : List.Forall₂ Places ss sections) : ∀ part ∈ sections.map given, Ready part := by
  intro part hpart
  obtain ⟨s, hs, rfl⟩ := List.mem_map.mp hpart
  obtain ⟨section', -, hplace⟩ := exists_of_forall₂_right h s hs
  obtain ⟨r, -, hmap⟩ := hplace.map
  exact (Sound.ofRecord r hmap).ready hplace.line_ne_zero

/-- Where the merged view of an index map comes from. -/
theorem merged_of_ofRecord {r : Record} {m : LoadedMap} {sections : List (Placed LoadedMap)}
    (h : ofRecord r = .ok m) (hsections : m.sections? = some sections) :
    ∃ ss, r.sections = some ss ∧ List.Forall₂ Places ss sections ∧
      m = .index r.file sections (View.merge (sections.map given)) := by
  rcases ofRecord_cases h with ⟨f, r', -, rfl⟩ | ⟨ss, sections', hss, hplaced, rfl⟩
  · cases hsections
  · cases hsections
    exact ⟨ss, hss, places_of_placeAll hplaced, rfl⟩

/-- **Flattening loses nothing and adds nothing.** An index map lists its mappings just when every
section lists its own and all of them have a position in the file. What it lists are then these
mappings at these positions, in order, and by place those of them that have an original location.
Otherwise the error names the first section that fails, and the cause. This is about string tables
whose slots have numbers of 32 bits. -/
theorem mappings_index {r : Record} {m : LoadedMap} {sections : List (Placed LoadedMap)}
    (h : ofRecord r = .ok m) (hsections : m.sections? = some sections) :
    (∃ ss, r.sections = some ss ∧ List.Forall₂ Places ss sections) ∧
    ((∃ listed, m.mappings .generated = .ok listed) ↔
      ∀ s ∈ sections, ∃ part, Lists (given s) part) ∧
    (∀ listed, m.mappings .generated = .ok listed → ∃ parts placed,
      List.Forall₂ (fun s part => Lists (given s) part) sections parts ∧
      listed.Perm parts.flatten ∧ Mapping.InOrder listed ∧
      m.mappings .original = .ok placed ∧
      placed.Perm (parts.flatten.filter fun a => a.original.isSome)) ∧
    ∀ e, m.mappings .generated = .error e → m.mappings .original = .error e ∧
      ∃ before s after cause, sections = before ++ s :: after ∧
        (∀ t ∈ before, ∃ part, Lists (given t) part) ∧
        (¬ ∃ part, Lists (given s) part) ∧ Merge.Fails (given s) cause ∧
        e = .inSection before.length cause := by
  obtain ⟨ss, hss, hplaces, rfl⟩ := merged_of_ofRecord h hsections
  have hready := ready_of_places hplaces
  cases hview : View.merge (sections.map given) with
  | ok v =>
      -- no section fails, and the view lists what they have
      obtain ⟨-, ⟨parts, hparts, hperm⟩, hsorted⟩ := View.merge_eq_ok hready hview
      rw [List.forall₂_map_left_iff] at hparts
      refine ⟨⟨ss, hss, hplaces⟩, ⟨fun _ s hs => ?_, fun _ => ⟨_, rfl⟩⟩, ?_, ?_⟩
      · obtain ⟨part, -, hpart⟩ := exists_of_forall₂ hparts s hs
        exact ⟨part, hpart⟩
      · intro listed hlisted
        cases hlisted
        refine ⟨parts, _, hparts, hperm, hsorted, rfl, ?_⟩
        exact v.perm_mappings_original.trans (hperm.filter _)
      · rintro e ⟨⟩
  | error e =>
      -- the section that fails is found again among the sections of the map
      obtain ⟨before, part, after, cause, hsplit, hbefore, hfails, rfl⟩ :=
        View.merge_eq_error hready hview
      obtain ⟨before', rest, rfl, rfl, hrest⟩ := List.map_eq_append_iff.mp hsplit
      obtain ⟨s, after', rfl, rfl, rfl⟩ := List.map_eq_cons_iff.mp hrest
      refine ⟨⟨ss, hss, hplaces⟩, ⟨?_, ?_⟩, ?_, ?_⟩
      · rintro ⟨listed, ⟨⟩⟩
      · intro hall
        obtain ⟨part, hpart⟩ := hall s (List.mem_append_right before' List.mem_cons_self)
        exact absurd hpart (hfails.not_lists part)
      · rintro listed ⟨⟩
      · rintro e ⟨⟩
        refine ⟨rfl, before', s, after', cause, rfl, ?_, ?_, hfails, by rw [List.length_map]⟩
        · intro t ht
          exact hbefore (given t) (List.mem_map_of_mem ht)
        · rintro ⟨part, hpart⟩
          exact hfails.not_lists part hpart

/-- The second section is an index map itself. -/
theorem mappings_index_nested :
    let flat : Record :=
      { version := some 3, sources := some [some "a.js"], mappings := some "AAAA,C" }
    let inner : Record :=
      { version := some 3, sections := some [{ offset := ⟨0, 2⟩, map := some flat }] }
    let outer : Record :=
      { version := some 3
        sections := some
          [{ offset := ⟨0, 5⟩, map := some flat }, { offset := ⟨4, 0⟩, map := some inner }] }
    let listed : List Mapping :=
      [{ generated := ⟨1, 5⟩, original := some ⟨"a.js", ⟨1, 0⟩⟩ }, { generated := ⟨1, 6⟩ },
        { generated := ⟨5, 2⟩, original := some ⟨"a.js", ⟨1, 0⟩⟩ }, { generated := ⟨5, 3⟩ }]
    ∃ m sections parts, ofRecord outer = .ok m ∧ m.sections? = some sections ∧
      List.Forall₂ (fun s part => Lists (given s) part) sections parts ∧
      listed.Perm parts.flatten := by
  intro flat inner outer listed
  have hload : ∃ m sections, ofRecord outer = .ok m ∧ m.sections? = some sections :=
    ⟨_, _, rfl, rfl⟩
  obtain ⟨m, sections, hm, hsections⟩ := hload
  have hlisted : (ofRecord outer).bind (fun m => m.mappings .generated) = .ok listed := by
    cbv
  rw [hm] at hlisted
  obtain ⟨parts, placed, hparts, hperm, -⟩ := (mappings_index hm hsections).2.2.1 listed hlisted
  exact ⟨m, sections, parts, hm, hsections, hparts, hperm⟩

/-! ## Sections of a listing -/

/-- Whether mappings are those of sections, at their positions in the file. -/
def Gathers (sections : List (Placed LoadedMap)) (listed : List Mapping) : Prop :=
  ∃ parts, List.Forall₂ (fun s part => Merge.Lists (given s) part) sections parts ∧
    listed.Perm parts.flatten

/-- What is gathered comes from a section, in the coordinates of that section. -/
theorem Gathers.exists_section {sections : List (Placed LoadedMap)} {listed : List Mapping}
    (h : Gathers sections listed) {a : Mapping} (ha : a ∈ listed) :
    ∃ s ∈ sections, ∃ ms part, s.map.mappings .generated = .ok ms ∧
      List.Forall₂ (Mapping.ShiftedTo s.offset) ms part ∧ a ∈ part ∧ ∀ c ∈ part, c ∈ listed := by
  obtain ⟨parts, hparts, hperm⟩ := h
  obtain ⟨part, hpart, hmem⟩ := List.mem_flatten.mp (hperm.mem_iff.mp ha)
  obtain ⟨s, hs, ms, hms, hshift⟩ := exists_of_forall₂_right hparts part hpart
  refine ⟨s, hs, ms, part, hms, hshift, hmem, ?_⟩
  intro c hc
  exact hperm.mem_iff.mpr (List.mem_flatten.mpr ⟨part, hpart, hc⟩)

/-- What a section lists is gathered, in the coordinates of the file. -/
theorem Gathers.exists_part {sections : List (Placed LoadedMap)} {listed : List Mapping}
    (h : Gathers sections listed) {s : Placed LoadedMap} (hs : s ∈ sections) :
    ∃ ms part, s.map.mappings .generated = .ok ms ∧
      List.Forall₂ (Mapping.ShiftedTo s.offset) ms part ∧ part.Subperm listed := by
  obtain ⟨parts, hparts, hperm⟩ := h
  obtain ⟨part, hpart, ms, hms, hshift⟩ := exists_of_forall₂ hparts s hs
  have hsub : part.Sublist parts.flatten := List.sublist_flatten_of_mem hpart
  exact ⟨ms, part, hms, hshift, hsub.subperm.trans hperm.symm.subperm⟩

section

variable {r : Record} {m : LoadedMap} {sections : List (Placed LoadedMap)} {listed : List Mapping}

/-- What an index map lists is what its sections have for the file. -/
theorem gathers (h : ofRecord r = .ok m) (hsections : m.sections? = some sections)
    (hlisted : m.mappings .generated = .ok listed) : Gathers sections listed := by
  obtain ⟨ss, -, hplaces, rfl⟩ := merged_of_ofRecord h hsections
  obtain ⟨v, hv, rfl⟩ := map_eq_ok_iff.mp hlisted
  obtain ⟨-, ⟨parts, hparts, hperm⟩, -⟩ := View.merge_eq_ok (ready_of_places hplaces) hv
  rw [List.forall₂_map_left_iff] at hparts
  exact ⟨parts, hparts, hperm⟩

/-- A mapping that is listed by an index map is listed by one of its sections, which has an
index. -/
theorem exists_section_of_listed (h : ofRecord r = .ok m) (hsections : m.sections? = some sections)
    (hlisted : m.mappings .generated = .ok listed) {a : Mapping} (ha : a ∈ listed) :
    ∃ i, ∃ hi : i < sections.length, ∃ ms part, sections[i].map.mappings .generated = .ok ms ∧
      List.Forall₂ (Mapping.ShiftedTo sections[i].offset) ms part ∧ a ∈ part ∧
      ∀ c ∈ part, c ∈ listed := by
  obtain ⟨s, hs, hrest⟩ := (gathers h hsections hlisted).exists_section ha
  obtain ⟨i, hi, rfl⟩ := List.getElem_of_mem hs
  exact ⟨i, hi, hrest⟩

/-- What a section lists is listed by the index map, in the coordinates of the file. -/
theorem exists_part_of_section (h : ofRecord r = .ok m) (hsections : m.sections? = some sections)
    (hlisted : m.mappings .generated = .ok listed) {s : Placed LoadedMap} (hs : s ∈ sections) :
    ∃ ms part, s.map.mappings .generated = .ok ms ∧
      List.Forall₂ (Mapping.ShiftedTo s.offset) ms part ∧ ∀ c ∈ part, c ∈ listed := by
  obtain ⟨ms, part, hms, hshift, hsub⟩ := (gathers h hsections hlisted).exists_part hs
  exact ⟨ms, part, hms, hshift, fun c hc => hsub.subset hc⟩

end

end SourceMap.LoadedMap

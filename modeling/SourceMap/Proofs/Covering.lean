import Mathlib
import SourceMap.Proofs.Flattening
import SourceMap.Proofs.Search
import SourceMap.Proofs.Shift

/-!
# Sections that cover positions

The sections of an index map start one after the other (`pairwise_offset`). Where each of them is
over before the next one starts, and none that lists something starts where another one does, the
section in which a mapping is listed is the one that covers its position (`sectionAt?_eq`). Then
every listed mapping is found again at its position, at any depth of nesting
(`originalPositionFor_listed`).
-/

set_option autoImplicit false

namespace SourceMap

/-! ## Flat maps -/

/-- An entry is found where it is, or another one at its position. -/
theorem MappingTable.exists_findGenerated? {t : MappingTable} (h : t.InOrder) {e : Entry}
    (he : e ∈ t.generated.toList) (bias : Bias) : ∃ e' ∈ t.generated.toList,
      t.findGenerated? e.generated bias = some e' ∧ e'.generated = e.generated := by
  have hsorted := Search.sorted_of_pairwise Entry.generated h
  obtain ⟨i, hi, hfind, heq⟩ :=
    Search.exists_findIndex?_of_mem hsorted (Array.mem_toList_iff.mp he) bias
  refine ⟨t.generated[i], Array.mem_toList_iff.mpr (Array.getElem_mem hi), ?_, ?_⟩
  · rw [findGenerated?, hfind, Option.bind_some, Array.getElem?_eq_getElem hi]
  · exact Std.LawfulEqCmp.eq_of_compare heq

/-- A mapping of a view is found again at its position, or another one that is listed there. -/
theorem View.exists_answer {v : View} (h : v.table.InOrder) {a : Mapping}
    (ha : a ∈ v.mappings .generated) (bias : Bias) : ∃ a' ∈ v.mappings .generated,
      a'.generated = a.generated ∧ v.originalPositionFor a.generated bias = a'.answer := by
  obtain ⟨e, he, rfl⟩ := List.mem_map.mp ha
  obtain ⟨e', he', hfind, hsame⟩ := MappingTable.exists_findGenerated? h he bias
  refine ⟨v.mapping e', List.mem_map_of_mem he', hsame, ?_⟩
  have hfind' : v.table.findGenerated? (v.mapping e).generated bias = some e' := hfind
  have hline : e'.generated.line = (v.mapping e).generated.line := congrArg Position.line hsame
  rw [View.originalPositionFor_eq, hfind']
  simp only [hline, if_true]

namespace LoadedMap

/-- The table of a flat map that a record describes is in order. -/
theorem inOrder_of_ofRecord {r : Record} {f : FlatMap} (h : FlatMap.ofRecord r = .ok f) {v : View}
    (hv : f.view = .ok v) : v.table.InOrder := by
  obtain ⟨t, ht, rfl⟩ := map_eq_ok_iff.mp hv
  rw [(FlatMap.loads_of_ofRecord h).table] at ht
  obtain ⟨es, -, rfl⟩ := map_eq_ok_iff.mp ht
  exact MappingTable.inOrder_ofList es

/-! ## Offsets in order -/

/-- The sections that a record describes are ordered as the record has them. -/
theorem Places.isLE_offset {s₁ s₂ : Section Record} {p₁ p₂ : Placed LoadedMap}
    (h₁ : Places s₁ p₁) (h₂ : Places s₂ p₂) (hle : (compare s₁.offset s₂.offset).isLE) :
    (compare p₁.offset p₂.offset).isLE := by
  have hline₁ := h₁.line
  have hline₂ := h₂.line
  rw [Offset.isLE_iff] at hle
  rw [Position.isLE_iff, h₁.column, h₂.column]
  omega

/-- No section that is loaded after an offset starts before it. -/
theorem isLE_of_placeAll {ss : List (Section Record)} :
    ∀ {index : Nat} {last : Offset} {sections : List (Placed LoadedMap)},
      placeAll index last ss = .ok sections → ss.Pairwise (fun s t =>
        (compare s.offset t.offset).isLE) ∧ ∀ s ∈ ss, (compare last s.offset).isLE := by
  induction ss with
  | nil =>
      intro index last sections h
      exact ⟨.nil, fun s hs => (List.not_mem_nil hs).elim⟩
  | cons s ss ih =>
      intro index last sections h
      obtain ⟨placed, rest, -, hfirst, hrest, -⟩ := placeAll_cons h
      obtain ⟨hpairwise, hafter⟩ := ih hrest
      refine ⟨.cons hafter hpairwise, ?_⟩
      intro t ht
      rcases List.mem_cons.mp ht with rfl | ht
      · exact hfirst
      · exact Std.TransCmp.isLE_trans hfirst (hafter t ht)

/-- **The sections that a record describes start one after the other.** -/
theorem pairwise_offset {ss : List (Section Record)} {sections : List (Placed LoadedMap)}
    (h : placeAll 0 .zero ss = .ok sections) :
    sections.Pairwise fun s t => (compare s.offset t.offset).isLE := by
  have hplaces := places_of_placeAll h
  have hpairwise := (isLE_of_placeAll h).1
  clear h
  induction hplaces with
  | nil => exact .nil
  | cons hplace hrest ih =>
      obtain ⟨hfirst, hrest'⟩ := List.pairwise_cons.mp hpairwise
      refine .cons ?_ (ih hrest')
      intro t ht
      obtain ⟨s, hs, hplace'⟩ := exists_of_forall₂_right hrest t ht
      exact hplace.isLE_offset hplace' (hfirst s hs)

/-! ## Sections apart -/

/-- Whether a relation holds between each section of a map and the next one, at every depth. -/
inductive Throughout (r : Placed LoadedMap → Placed LoadedMap → Prop) : LoadedMap → Prop
  | flat (f : FlatMap) : Throughout r (.flat f)
  | index {file : Option String} {sections : List (Placed LoadedMap)}
      {merged : Except Error View} : sections.IsChain r → (∀ s ∈ sections, Throughout r s.map) →
      Throughout r (.index file sections merged)

/-- Whether all that a section lists is before the start of the next one. -/
def EndsBefore (s t : Placed LoadedMap) : Prop :=
  ∀ part, Merge.Lists (given s) part → ∀ a ∈ part, compare a.generated t.offset = .lt

/-- Whether a section that starts where the one before it does lists nothing. -/
def StartsAlone (s t : Placed LoadedMap) : Prop :=
  t.offset = s.offset → ∀ part, Merge.Lists (given t) part → part = []

/-- **The section that lists a mapping covers its position.** -/
theorem sectionAt?_eq {sections : List (Placed LoadedMap)}
    (hordered : sections.Pairwise fun s t => (compare s.offset t.offset).isLE)
    (hends : sections.IsChain EndsBefore) (halone : sections.IsChain StartsAlone) {i : Nat}
    (hi : i < sections.length) {part : List Mapping} (hpart : Merge.Lists (given sections[i]) part)
    {a : Mapping} (ha : a ∈ part) (hstart : (compare sections[i].offset a.generated).isLE) :
    sectionAt? sections a.generated = some i := by
  have hsorted : Search.Sorted Placed.offset sections.toArray :=
    Search.sorted_of_pairwise Placed.offset hordered
  apply (Search.findIndex?_eq_some_iff hsorted).mpr
  refine ⟨hi, hstart, ?_, ?_⟩
  · -- a section after this one starts behind the mapping
    intro j hj hwithin
    apply hsorted j i _ hi
    by_contra hij
    have hj' : j < sections.length := hj
    have hend := List.IsChain.getElem hends i (by omega) part hpart a ha
    have hle := hsorted (i + 1) j (by omega) hj
    have hlt : compare a.generated sections[j].offset = .lt :=
      Std.TransCmp.lt_of_lt_of_isLE hend hle
    have hgt : compare sections[j].offset a.generated = .gt := Std.OrientedCmp.gt_of_lt hlt
    have hwithin' : (compare sections[j].offset a.generated).isLE := hwithin
    rw [hgt] at hwithin'
    cases hwithin'
  · -- a section before this one does not start where this one does, which lists something
    intro j hj
    have hle := hsorted j (i - 1) (by omega) (by simp; omega)
    have hstep := hsorted (i - 1) i (by omega) hi
    have hlt : compare sections[i - 1].offset sections[i].offset = .lt := by
      rcases Ordering.isLE_iff_eq_lt_or_eq_eq.mp hstep with hlt | heq
      · exact hlt
      · have hsame := (Std.LawfulEqCmp.eq_of_compare heq).symm
        have hchain := List.IsChain.getElem halone (i - 1) (by omega)
        have hsucc : i - 1 + 1 = i := by omega
        simp only [hsucc] at hchain
        have hnil := hchain hsame part hpart
        rw [hnil] at ha
        cases ha
    exact Std.TransCmp.lt_of_isLE_of_lt hle hlt

/-! ## Listed mappings found -/

/-- A mapping says the same of its place wherever its section starts. -/
theorem answer_of_shiftedTo {offset : Position} {a a' : Mapping}
    (h : Mapping.ShiftedTo offset a a') : a'.answer = a.answer := by
  rw [Mapping.answer, Mapping.answer, h.2.1, h.2.2]

/-- **Look-ups in a map agree with what it lists.** If each section is over before the next one
starts, and none that lists something starts where the section before it does, at every depth, then
at the position of every listed mapping a map answers with a mapping that it lists there. This is
about string tables whose slots have numbers of 32 bits. -/
theorem originalPositionFor_listed {r : Record} : ∀ {m : LoadedMap}, ofRecord r = .ok m →
    Throughout EndsBefore m → Throughout StartsAlone m → ∀ {listed : List Mapping},
      m.mappings .generated = .ok listed → ∀ a ∈ listed, ∀ bias : Bias,
        ∃ a' ∈ listed, a'.generated = a.generated ∧
          m.originalPositionFor a.generated bias = .ok a'.answer := by
  induction r using Record.induction with
  | h r ih =>
      intro m hm hends halone listed hlisted a ha bias
      rcases ofRecord_cases hm with ⟨f, r', hf, rfl⟩ | ⟨ss, sections, hss, hplaced, rfl⟩
      · obtain ⟨v, hv, rfl⟩ := map_eq_ok_iff.mp hlisted
        obtain ⟨a', ha', hsame, hanswer⟩ :=
          View.exists_answer (inOrder_of_ofRecord hf hv) ha bias
        refine ⟨a', ha', hsame, ?_⟩
        have hview : f.view = .ok v := hv
        rw [originalPositionFor, hview, ok_map, hanswer]
      · obtain ⟨i, hi, ms, part, hms, hshift, hpart, hlists⟩ :=
          exists_section_of_listed hm rfl hlisted ha
        obtain ⟨b, hb, hab⟩ := exists_of_forall₂_right hshift a hpart
        -- the section that lists the mapping is one of the record
        obtain ⟨s, hs, hplace⟩ :=
          exists_of_forall₂_right (places_of_placeAll hplaced) sections[i] (List.getElem_mem hi)
        obtain ⟨r', hr', hmap⟩ := hplace.map
        have hline := hplace.line_ne_zero
        have hbline : b.generated.line ≠ 0 := (Mapping.fault?_eq_none_iff.mp
          ((Sound.ofRecord r' hmap).fault?_eq_none hms b hb)).1
        cases hends with
        | index hends hends' =>
        cases halone with
        | index halone halone' =>
        -- the look-up goes to this section and to the place of the mapping there
        have hat := sectionAt?_eq (pairwise_offset hplaced) hends halone hi ⟨ms, hms, hshift⟩ hpart
          (hab.1.isLE hbline)
        have hlocal := hab.1.toLocal_eq hline hbline
        obtain ⟨b', hb', hsame, hanswer⟩ := ih ss hss s hs r' hr' hmap
          (hends' _ (List.getElem_mem hi)) (halone' _ (List.getElem_mem hi)) hms b hb bias
        obtain ⟨a', ha', hab'⟩ := exists_of_forall₂ hshift b' hb'
        refine ⟨a', hlists a' ha', ?_, ?_⟩
        · have hshift' := hab'.1
          rw [hsame] at hshift'
          exact hshift'.unique hab.1
        · rw [ofSections, originalPositionFor, hat]
          dsimp only
          rw [originalPositionIn_eq, List.getElem?_eq_getElem hi]
          dsimp only
          rw [hlocal, hanswer, answer_of_shiftedTo hab']

/-- A section starts in the middle of a line, and the one after it is an index map itself. -/
theorem originalPositionFor_listed_nested :
    let flat : Record :=
      { version := some 3, sources := some [some "a.js"], mappings := some "AAAA,C" }
    let inner : Record :=
      { version := some 3, sections := some [{ offset := ⟨0, 2⟩, map := some flat }] }
    let outer : Record :=
      { version := some 3
        sections := some
          [{ offset := ⟨0, 5⟩, map := some flat }, { offset := ⟨0, 9⟩, map := some inner }] }
    let listed : List Mapping :=
      [{ generated := ⟨1, 5⟩, original := some ⟨"a.js", ⟨1, 0⟩⟩ }, { generated := ⟨1, 6⟩ },
        { generated := ⟨1, 11⟩, original := some ⟨"a.js", ⟨1, 0⟩⟩ }, { generated := ⟨1, 12⟩ }]
    ∃ m, ofRecord outer = .ok m ∧ Throughout EndsBefore m ∧ Throughout StartsAlone m ∧
      m.mappings .generated = .ok listed ∧ ∃ a' ∈ listed, a'.generated = ⟨1, 11⟩ ∧
        m.originalPositionFor ⟨1, 11⟩ .leastUpperBound = .ok a'.answer := by
  intro flat inner outer listed
  obtain ⟨f, hf⟩ : ∃ f, ofRecord flat = .ok (.flat f) := ⟨_, rfl⟩
  have hflat : (ofRecord flat).bind (fun m => m.mappings .generated) =
      .ok [{ generated := ⟨1, 0⟩, original := some ⟨"a.js", ⟨1, 0⟩⟩ },
        { generated := ⟨1, 1⟩ }] := by
    cbv
  rw [hf] at hflat
  let nested : LoadedMap := ofSections none [{ offset := ⟨1, 2⟩, map := .flat f }]
  let sections : List (Placed LoadedMap) :=
    [{ offset := ⟨1, 5⟩, map := .flat f }, { offset := ⟨1, 9⟩, map := nested }]
  obtain ⟨m, hm, hshape⟩ : ∃ m, ofRecord outer = .ok m ∧ m = ofSections none sections := by
    cases hf
    exact ⟨_, rfl, rfl⟩
  have hsections (r) : ∀ s ∈ sections, Throughout r s.map := by
    intro s hs
    rcases List.mem_pair.mp hs with rfl | rfl
    · exact .flat f
    · refine .index (.singleton _) ?_
      intro t ht
      rw [List.mem_singleton.mp ht]
      exact .flat f
  have hends : Throughout EndsBefore m := by
    rw [hshape]
    refine .index (.cons_cons ?_ (.singleton _)) (hsections _)
    rintro part ⟨ms, hms, hshift⟩ a ha
    obtain ⟨b, hb, ⟨hline, hcolumn⟩, -⟩ := exists_of_forall₂_right hshift a ha
    have hms' : ms = _ := Except.ok.inj (hms.symm.trans hflat)
    rw [hms'] at hb
    rw [Position.lt_iff]
    rcases List.mem_pair.mp hb with rfl | rfl
    · simp [given] at hline hcolumn ⊢
      omega
    · simp [given] at hline hcolumn ⊢
      omega
  have halone : Throughout StartsAlone m := by
    rw [hshape]
    refine .index (.cons_cons ?_ (.singleton _)) (hsections _)
    rintro ⟨⟩
  have hlisted : (ofRecord outer).bind (fun m => m.mappings .generated) = .ok listed := by
    cbv
  rw [hm] at hlisted
  obtain ⟨a', ha', hsame, hanswer⟩ := originalPositionFor_listed hm hends halone hlisted
    { generated := ⟨1, 11⟩, original := some ⟨"a.js", ⟨1, 0⟩⟩ } (by simp [listed]) .leastUpperBound
  exact ⟨m, hm, hends, halone, hlisted, a', ha', hsame, hanswer⟩

/-- Where a section starts at the place of one that lists nothing, its mappings are not found: the
look-up goes to the first section that starts there. -/
theorem originalPositionFor_shared_offset :
    let outer : Record :=
      { version := some 3
        sections := some
          [{ offset := ⟨0, 0⟩, map := some { version := some 3 } },
            { offset := ⟨0, 0⟩
              map := some
                { version := some 3, sources := some [some "a.js"], mappings := some "AAAA" } }] }
    ∃ m, ofRecord outer = .ok m ∧ Throughout EndsBefore m ∧
      m.mappings .generated = .ok [{ generated := ⟨1, 0⟩, original := some ⟨"a.js", ⟨1, 0⟩⟩ }] ∧
      ∀ bias : Bias, m.originalPositionFor ⟨1, 0⟩ bias = .ok {} := by
  intro outer
  have hlisted : (ofRecord outer).bind (fun m => m.mappings .generated) =
      .ok [{ generated := ⟨1, 0⟩, original := some ⟨"a.js", ⟨1, 0⟩⟩ }] := by
    cbv
  have hanswer (bias : Bias) :
      (ofRecord outer).bind (fun m => m.originalPositionFor ⟨1, 0⟩ bias) = .ok {} := by
    cases bias <;> cbv
  have hempty :
      (ofRecord { version := some 3 }).bind (fun m => m.mappings .generated) = .ok [] := by
    cbv
  obtain ⟨f, hf⟩ : ∃ f, ofRecord { version := some 3 } = .ok (.flat f) := ⟨_, rfl⟩
  rw [hf] at hempty
  obtain ⟨m, g, hm, hshape⟩ : ∃ m g, ofRecord outer = .ok m ∧ m = ofSections none
      [{ offset := ⟨1, 0⟩, map := .flat f }, { offset := ⟨1, 0⟩, map := .flat g }] := by
    cases hf
    exact ⟨_, _, rfl, rfl⟩
  rw [hm] at hlisted hanswer
  refine ⟨m, hm, ?_, hlisted, hanswer⟩
  rw [hshape]
  refine .index (.cons_cons ?_ (.singleton _)) ?_
  · -- the first section lists nothing
    rintro part ⟨ms, hms, hshift⟩ a ha
    have hms' : ms = [] := Except.ok.inj (hms.symm.trans hempty)
    obtain ⟨b, hb, -⟩ := exists_of_forall₂_right hshift a ha
    rw [hms'] at hb
    cases hb
  · intro s hs
    rcases List.mem_pair.mp hs with rfl | rfl
    · exact .flat f
    · exact .flat g

end LoadedMap

end SourceMap

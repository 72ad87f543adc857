import Mathlib
import SourceMap.Proofs.RoundTrip
import SourceMap.Proofs.Search

/-!
# Chained maps

Taking a builder through a map composes the lookups of both (`originalPositionFor_applyMap`). The
mappings keep their generated positions, and a search looks at nothing else; so the same mapping is
found before and after, although the slots of the sources, by which equal positions are ordered,
may change.
-/

set_option autoImplicit false

namespace SourceMap

/-! ## Tables with the same generated positions -/

/-- Tables with the same generated positions are searched alike. -/
theorem MappingTable.findGenerated?_alike {es fs : List Entry}
    (h : es.map Entry.generated = fs.map Entry.generated) (p : Position) (bias : Bias) :
    ((ofList es).findGenerated? p bias = none ∧ (ofList fs).findGenerated? p bias = none) ∨
      ∃ e ∈ es, ∃ f ∈ fs, f.generated = e.generated ∧
        (ofList es).findGenerated? p bias = some e ∧
        (ofList fs).findGenerated? p bias = some f := by
  have hsorted : (ofList es).generated.toList.map Entry.generated =
      (ofList fs).generated.toList.map Entry.generated :=
    Entry.map_generated_sortGenerated (by rw [h])
  -- the search gives an index, at which both tables have an entry or neither has
  have hindex := Search.findIndex?_congr Entry.generated p hsorted bias
  unfold findGenerated?
  rw [hindex]
  cases Search.findIndex? Entry.generated p (ofList fs).generated bias with
  | none => exact Or.inl ⟨rfl, rfl⟩
  | some i =>
      have hi := congrArg (fun ps : List Position => ps[i]?) hsorted
      simp only [List.getElem?_map, Array.getElem?_toList] at hi
      show ((ofList es).generated[i]? = none ∧ (ofList fs).generated[i]? = none) ∨
        ∃ e ∈ es, ∃ f ∈ fs, f.generated = e.generated ∧
          (ofList es).generated[i]? = some e ∧ (ofList fs).generated[i]? = some f
      cases he : (ofList es).generated[i]? with
      | none =>
          rw [he, Option.map_none, eq_comm, Option.map_eq_none_iff] at hi
          exact Or.inl ⟨rfl, hi⟩
      | some e =>
          rw [he, Option.map_some, eq_comm, Option.map_eq_some_iff] at hi
          obtain ⟨f, hf, hgenerated⟩ := hi
          refine Or.inr ⟨e, ?_, f, ?_, hgenerated, rfl, hf⟩
          · exact (Entry.perm_sortGenerated es).mem_iff.mp
              (Array.mem_toList_iff.mpr (Array.mem_of_getElem? he))
          · exact (Entry.perm_sortGenerated fs).mem_iff.mp
              (Array.mem_toList_iff.mpr (Array.mem_of_getElem? hf))

namespace Builder

/-! ## Moved mappings -/

/-- Whether the answer `p'` is `p` taken through a map for the generated file `file`. An answer in
another file stays as it is. An answer in the file becomes what the map says of its place, with its
own name where the map has none, or stays as it is if the map has nothing to say. -/
def Chains (m : LoadedMap) (file : String) (p p' : OriginalPosition) : Prop :=
  (p.source ≠ some file → p' = p) ∧
  (p.source = some file → ∃ line column q, p.line = some line ∧ p.column = some column ∧
    m.originalPositionFor { line, column } .greatestLowerBound = .ok q ∧
    p' = if q.isEmpty then p else { q with name := q.name.or p.name })

theorem chains_empty (m : LoadedMap) (file : String) : Chains m file {} {} := by
  refine ⟨fun _ => rfl, ?_⟩
  intro hsource
  cases hsource

/-- **A moved mapping says what the map makes of what it said before.** -/
theorem Moves.chains {m : LoadedMap} (hm : m.Sound) {file : String} {a a' : Mapping}
    (h : Moves m file id a a') : Chains m file a.answer a'.answer := by
  obtain ⟨found, hfound, rfl⟩ := h
  cases ho : a.original with
  | none =>
      -- a mapping without original location answers nothing, before and after
      have hnone : found = none := by
        rw [lookUp, ho] at hfound
        cases hfound
        rfl
      have hanswer : a.answer = {} := by
        rw [Mapping.answer, ho]
      rw [hnone]
      show Chains m file a.answer a.answer
      rw [hanswer]
      exact chains_empty m file
  | some o =>
      have hanswer : a.answer =
          { source := some o.source, line := some o.position.line
            column := some o.position.column, name := a.name } := by
        rw [Mapping.answer, ho]
      have hlookUp := hfound
      rw [lookUp, ho] at hlookUp
      dsimp only at hlookUp
      by_cases hfile : o.source = file
      · rw [if_pos hfile] at hlookUp
        obtain ⟨q, hq, hfound'⟩ := map_eq_ok_iff.mp hlookUp
        refine ⟨fun hne => absurd (by rw [hanswer, hfile]) hne, fun _ => ?_⟩
        refine ⟨o.position.line, o.position.column, q, by rw [hanswer], by rw [hanswer], hq, ?_⟩
        cases hempty : q.isEmpty with
        | true =>
            -- the map has nothing to say of the place
            rw [← hfound', hempty]
            rfl
        | false =>
            rw [← hfound', hempty] at hfound
            obtain ⟨source, line, column, -, heq, hmove⟩ := move_eq hm hfound id
            have hsource : q.source = some source := congrArg OriginalPosition.source heq
            have hline : q.line = some line := congrArg OriginalPosition.line heq
            have hcolumn : q.column = some column := congrArg OriginalPosition.column heq
            rw [← hfound', hempty]
            show (move id a (some q)).answer = { q with name := q.name.or a.answer.name }
            rw [hmove, hanswer, hsource, hline, hcolumn]
            rfl
      · rw [if_neg hfile] at hlookUp
        cases hlookUp
        refine ⟨fun _ => rfl, fun hsource => absurd ?_ hfile⟩
        rw [hanswer] at hsource
        exact Option.some.inj hsource

/-! ## Composed lookups -/

/-- The table of the map of a builder. -/
def table (b : Builder) : MappingTable :=
  .ofList (b.mappings.map b.entry)

theorem originalPositionFor_toMap {b : Builder} (hroot : b.root = none) (p : Position)
    (bias : Bias) :
    b.toMap.originalPositionFor p bias =
      .ok ((b.viewOf b.table).originalPositionFor p bias) := by
  rw [toMap, hroot, LoadedMap.originalPositionFor]
  rfl

/-- Mappings that are moved are found where they were before. -/
theorem Sound.findGenerated?_moved {b b' : Builder} {r : Mapping → Mapping → Prop}
    (hr : ∀ {a a'}, r a a' → a'.generated = a.generated)
    (hmoved : List.Forall₂ r b.mappings b'.mappings)
    (hdistinct : (b.mappings.map Mapping.generated).Nodup) (p : Position) (bias : Bias) :
    (b.table.findGenerated? p bias = none ∧ b'.table.findGenerated? p bias = none) ∨
      ∃ a ∈ b.mappings, ∃ a' ∈ b'.mappings, r a a' ∧
        b.table.findGenerated? p bias = some (b.entry a) ∧
        b'.table.findGenerated? p bias = some (b'.entry a') := by
  have hgenerated : b'.mappings.map Mapping.generated = b.mappings.map Mapping.generated :=
    map_eq_of_forall₂ hr hmoved
  have hentries : (b.mappings.map b.entry).map Entry.generated =
      (b'.mappings.map b'.entry).map Entry.generated := by
    rw [List.map_map, List.map_map]
    exact hgenerated.symm
  rcases MappingTable.findGenerated?_alike hentries p bias with
    hnone | ⟨e, he, f, hf, hsame, hfind, hfind'⟩
  · exact Or.inl hnone
  · obtain ⟨a, ha, rfl⟩ := List.mem_map.mp he
    obtain ⟨a', ha', rfl⟩ := List.mem_map.mp hf
    obtain ⟨a'', ha'', hr'⟩ := exists_of_forall₂ hmoved a ha
    -- only one mapping is at this position
    have hunique : a'' = a' := by
      rw [← hgenerated] at hdistinct
      refine List.inj_on_of_nodup_map hdistinct ha'' ha' ?_
      exact (hr hr').trans hsame.symm
    rw [hunique] at hr'
    exact Or.inr ⟨a, ha, a', ha', hr', hfind, hfind'⟩

/-- **Chaining composes lookups.** When a builder without source root, whose mappings are at
distinct generated positions, has been taken through a map, its map answers what the map makes of
the answer before. This is about string tables whose slots have numbers of 32 bits. -/
theorem originalPositionFor_applyMap {b b' : Builder} {m : LoadedMap} {file : Option String}
    (hb : b.Reachable) (hm : m.Reachable) (hroot : b.root = none)
    (hdistinct : (b.mappings.map Mapping.generated).Nodup)
    (happly : b.applyMap m file none = .ok b') :
    ∃ applied, file.or m.file = some applied ∧ ∀ (position : Position) (bias : Bias), ∃ p p',
      b.toMap.originalPositionFor position bias = .ok p ∧
      b'.toMap.originalPositionFor position bias = .ok p' ∧
      Chains m applied p p' := by
  have hsound := hb.sound
  have hsound' := hsound.applyMap hm.sound happly
  obtain ⟨applied, moved, contents, happlied, hmoved, hb'⟩ := applyMap_cases happly
  have hroot' : b'.root = none := by
    rw [hb']
    exact hroot
  have hmoves : List.Forall₂ (Moves m applied id) b.mappings b'.mappings := by
    rw [hroot] at hmoved
    rw [hb']
    exact hmoved
  refine ⟨applied, happlied, fun position bias => ?_⟩
  refine ⟨_, _, originalPositionFor_toMap hroot position bias,
    originalPositionFor_toMap hroot' position bias, ?_⟩
  rw [View.originalPositionFor_eq, View.originalPositionFor_eq]
  rcases Sound.findGenerated?_moved Moves.generated hmoves hdistinct position bias with
    ⟨hnone, hnone'⟩ | ⟨a, ha, a', ha', hmove, hfind, hfind'⟩
  · have htable : (b.viewOf b.table).table.findGenerated? position bias = none := hnone
    have htable' : (b'.viewOf b'.table).table.findGenerated? position bias = none := hnone'
    simp only [htable, htable']
    exact chains_empty m applied
  · -- what is found is on the asked line before just when it is after
    have htable : (b.viewOf b.table).table.findGenerated? position bias = some (b.entry a) := hfind
    have htable' : (b'.viewOf b'.table).table.findGenerated? position bias = some (b'.entry a') :=
      hfind'
    have hline : (b'.entry a').generated.line = (b.entry a).generated.line :=
      congrArg Position.line hmove.generated
    simp only [htable, htable', hline, hsound.mapping_entry ha, hsound'.mapping_entry ha']
    split
    · exact hmove.chains hm.sound
    · exact chains_empty m applied

/-- The builder with one mapping. -/
def single (m : Mapping) : Builder :=
  { sources := registerSource .empty m
    names := registerName .empty m
    log := MappingLog.add {} m }

theorem reachable_single {m : Mapping} (h : m.fault? = none) : (single m).Reachable :=
  .addMapping m (.new none none) (addMapping_eq_ok_iff.mpr ⟨h, rfl⟩)

/-- A mapping into `b.js` is moved to where `b.js` comes from, under its own name. -/
theorem originalPositionFor_applyMap_single :
    let b := single { generated := ⟨1, 0⟩, original := some ⟨"b.js", ⟨1, 4⟩⟩, name := some "x" }
    let m := (single { generated := ⟨1, 4⟩, original := some ⟨"a.js", ⟨7, 2⟩⟩ }).toMap
    b.root = none ∧ (b.mappings.map Mapping.generated).Nodup ∧
      ∃ b', b.applyMap m (some "b.js") none = .ok b' ∧
        b'.toMap.originalPositionFor ⟨1, 0⟩ .greatestLowerBound =
          .ok { source := some "a.js", line := some 7, column := some 2, name := some "x" } := by
  intro b m
  have hb : b.Reachable := reachable_single rfl
  have hm : m.Reachable := .toMap (reachable_single rfl)
  have happly : ∃ b', b.applyMap m (some "b.js") none = .ok b' := by
    have hok : (b.applyMap m (some "b.js") none).toOption.isSome = true := by cbv
    cases hresult : b.applyMap m (some "b.js") none with
    | error e => rw [hresult] at hok; cases hok
    | ok b' => exact ⟨b', rfl⟩
  have hbefore : b.toMap.originalPositionFor ⟨1, 0⟩ .greatestLowerBound =
      .ok { source := some "b.js", line := some 1, column := some 4, name := some "x" } := by
    cbv
  have hmap : m.originalPositionFor ⟨1, 4⟩ .greatestLowerBound =
      .ok { source := some "a.js", line := some 7, column := some 2 } := by
    cbv
  obtain ⟨b', happly⟩ := happly
  obtain ⟨applied, happlied, hlookups⟩ :=
    originalPositionFor_applyMap hb hm rfl (by decide) happly
  cases happlied
  obtain ⟨p, p', hp, hp', -, hchains⟩ := hlookups ⟨1, 0⟩ .greatestLowerBound
  rw [hbefore] at hp
  cases hp
  obtain ⟨line, column, q, hline, hcolumn, hq, rfl⟩ := hchains rfl
  cases hline
  cases hcolumn
  rw [hmap] at hq
  cases hq
  exact ⟨rfl, by decide, b', happly, hp'⟩

end Builder

end SourceMap

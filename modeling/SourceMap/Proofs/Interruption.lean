import Mathlib
import SourceMap.Proofs.LastColumns
import SourceMap.Proofs.SameAnswers
import SourceMap.Proofs.Tiling

/-!
# Interrupted updates

Computing the spans of an index map updates one section after the other, and stops at the first that
fails. The sections before it keep their spans. So an index map whose update has failed may answer
with last columns that it did not know before (`generatedPositionFor_interrupted`). Nothing else of
its answers changes, and they are all as before just if the updated sections never answer with a
position (`answers_of_failed_computeSpans`).
-/

set_option autoImplicit false

namespace SourceMap

/-! ## Known spans -/

/-- Whether the last columns of all entries are known, or none is. -/
def View.Known (known : Bool) (v : View) : Prop :=
  ∀ e ∈ v.table.generated.toList, e.lastColumn.isSome = known

/-- Whether an answer is nothing, or a position whose last column is known or is not. -/
def GeneratedPosition.Known (known : Bool) (g : GeneratedPosition) : Prop :=
  g = {} ∨ g.line.isSome ∧ g.lastColumn.isSome = known

theorem View.known_withSpans (v : View) : v.withSpans.Known true :=
  fun _ he => Entry.isSome_lastColumn_of_mem_withSpans he

theorem View.Known.answer {known : Bool} {v : View} (h : v.Known known) (source : String)
    (p : Position) (bias : Bias) : (v.generatedPositionFor source p bias).Known known := by
  have htells := v.answersSource source p bias
  generalize v.generatedPositionFor source p bias = answer at htells ⊢
  generalize v.sourceSlot? source = slot? at htells
  cases htells with
  | unknown => exact Or.inl rfl
  | nothing _ => exact Or.inl rfl
  | @entry _ e _ hnearest => exact Or.inr ⟨rfl, h e hnearest.mem⟩

/-- What is merged has no spans. -/
theorem View.known_merge {sections : List (Position × Except Error (List Mapping))} {v : View}
    (h : merge sections = .ok v) : v.Known false := by
  obtain ⟨g, hadd, rfl⟩ := map_eq_ok_iff.mp h
  have hentries : ∀ e ∈ g.entries, e.lastColumn.isSome = false := by
    refine Merge.addSections_invariant (p := fun g => ∀ e ∈ g.entries, e.lastColumn.isSome = false)
      (fun {g} hg position m e he => ?_) (g := {}) (by simp) hadd
    obtain ⟨generated, _ | o, name⟩ := m
    · rcases List.mem_cons.mp he with rfl | he
      · rfl
      · exact hg e he
    · rcases List.mem_cons.mp he with rfl | he
      · rfl
      · exact hg e he
  intro e he
  exact hentries e (List.mem_reverse.mp ((Entry.perm_sortGenerated _).mem_iff.mp he))

namespace LoadedMap

/-- Whether the last columns of all entries of a map are known, or none is, at every depth. -/
inductive Known (known : Bool) : LoadedMap → Prop
  | flat {f : FlatMap} : (∀ v, f.view = .ok v → v.Known known) → Known known (.flat f)
  | index {file : Option String} {sections : List (Placed LoadedMap)}
      {merged : Except Error View} : (∀ s ∈ sections, Known known s.map) →
      (∀ v, merged = .ok v → v.Known known) → Known known (.index file sections merged)

theorem Known.view {known : Bool} {m : LoadedMap} (h : m.Known known) {v : View}
    (hv : m.view = .ok v) : v.Known known := by
  cases h with
  | flat hview => exact hview v hv
  | index _ hmerged => exact hmerged v hv

/-- The coordinates of the file make no last column known or unknown. -/
theorem known_toGlobalAnswer {known : Bool} {offset q : Position} {found answer : GeneratedPosition}
    (hfound : found.Known known) (hat : found.IsAt q)
    (h : toGlobalAnswer offset found q = .ok answer) : answer.Known known := by
  rcases hfound with rfl | ⟨-, hlast⟩
  · obtain ⟨⟨⟩, -⟩ := hat
  · rw [toGlobalAnswer] at h
    split at h
    · cases h
    · cases h
      refine Or.inr ⟨rfl, ?_⟩
      rw [Option.isSome_map]
      exact hlast

/-- **All positions that a map answers with have their last columns, or none does.** -/
theorem Known.answer {known : Bool} {m : LoadedMap} (h : m.Known known) {source : String}
    {p : Position} {bias : Bias} : ∀ {answer : GeneratedPosition},
      m.generatedPositionFor source p bias = .ok answer → answer.Known known := by
  induction h with
  | @flat f hview =>
      intro answer hanswer
      obtain ⟨v, hv, rfl⟩ := map_eq_ok_iff.mp hanswer
      exact (hview v hv).answer source p bias
  | index _ _ ih =>
      intro answer hanswer
      rw [generatedPositionFor] at hanswer
      rcases generatedPositionIn_cases hanswer with rfl | ⟨s, hs, found, q, hfound, hat, hglobal⟩
      · exact Or.inl rfl
      · exact known_toGlobalAnswer (ih s hs hfound) hat hglobal

theorem Known.answers {known : Bool} {m : LoadedMap} (h : m.Known known) {source : String}
    {line : UInt32} {column : Option UInt32} {found : List GeneratedPosition}
    (hfound : m.allGeneratedPositionsFor source line column = .ok found) :
    ∀ g ∈ found, g.lastColumn.isSome = known := by
  obtain ⟨v, hv, rfl⟩ := map_eq_ok_iff.mp hfound
  intro g hg
  obtain ⟨e, he, rfl⟩ := View.exists_entry_of_mem hg
  exact h.view hv e he

/-- A map that was just loaded knows no last column. -/
theorem Known.ofRecord (r : Record) :
    ∀ {m : LoadedMap}, LoadedMap.ofRecord r = .ok m → m.Known false := by
  induction r using Record.induction with
  | h r ih =>
      intro m h
      rcases ofRecord_cases h with ⟨f, r', hf, rfl⟩ | ⟨ss, sections, hss, hplaced, rfl⟩
      · refine .flat fun v hv e he => ?_
        have htable := (FlatMap.loads_of_ofRecord hf).table
        obtain ⟨t, ht, rfl⟩ := map_eq_ok_iff.mp hv
        rw [htable] at ht
        obtain ⟨es, hes, rfl⟩ := map_eq_ok_iff.mp ht
        have hlast := Entry.lastColumn_of_mem_decodeAll hes
          ((Entry.perm_sortGenerated es).mem_iff.mp he)
        rw [hlast]
        rfl
      · refine .index (fun s hs => ?_) fun v hv => View.known_merge hv
        obtain ⟨section', hmem, hplace⟩ :=
          exists_of_forall₂_right (places_of_placeAll hplaced) s hs
        obtain ⟨r', hr', hmap⟩ := hplace.map
        exact ih ss hss section' hmem r' hr' hmap

/-- **A map whose spans could be computed knows all last columns.** -/
theorem known_computeSpans (m : LoadedMap) :
    ∀ {m' : LoadedMap}, m.computeSpans = (.ok (), m') → m'.Known true := by
  induction m using LoadedMap.induction with
  | hflat f =>
      intro m' h
      obtain ⟨-, rfl⟩ := Prod.mk.inj h
      refine .flat fun v hv => ?_
      rw [FlatMap.view_withSpans] at hv
      obtain ⟨v₀, -, rfl⟩ := map_eq_ok_iff.mp hv
      exact v₀.known_withSpans
  | hindex file sections merged ih =>
      intro m' h
      obtain ⟨sections', v, rfl, rfl, hsections⟩ := computeSpans_index_eq_ok h
      refine .index (fun s' hs' => ?_) fun v' hv' => ?_
      · obtain ⟨s, hs, -, hspans⟩ := exists_of_forall₂_right hsections s' hs'
        exact ih s hs hspans
      · cases hv'
        exact v.known_withSpans

/-! ## Sections of sections -/

/-- Computing the spans of an index map leaves it an index map of its updated sections. -/
theorem computeSpans_index (file : Option String) (sections : List (Placed LoadedMap))
    (merged : Except Error View) : ∃ merged',
      (LoadedMap.index file sections merged).computeSpans.2 =
        .index file (computeSpansIn 0 sections).2 merged' := by
  rw [computeSpans]
  split
  · rename_i hspans
    rw [hspans]
    exact ⟨_, rfl⟩
  · rename_i hspans
    rw [hspans]
    exact ⟨_, rfl⟩

/-- Where this fails the merged view is as it was. -/
theorem computeSpans_index_error {file : Option String} {sections : List (Placed LoadedMap)}
    {merged : Except Error View} {e : Error}
    (h : (LoadedMap.index file sections merged).computeSpans.1 = .error e) :
    (LoadedMap.index file sections merged).computeSpans.2 =
      .index file (computeSpansIn 0 sections).2 merged := by
  rw [computeSpans] at h ⊢
  split at h
  · rename_i hspans
    simp only [hspans]
  · rename_i hspans
    obtain rfl := map_eq_error_iff.mp h
    simp only [hspans]
    rfl

theorem computeSpans_flat_error {f : FlatMap} {e : Error}
    (h : (LoadedMap.flat f).computeSpans.1 = .error e) :
    (LoadedMap.flat f).computeSpans.2 = .flat f := by
  obtain ⟨file, root, sources, names, contents, table⟩ := f
  obtain rfl : table = .error e := map_eq_error_iff.mp h
  rfl

/-- A map whose update failed lists what it listed. -/
theorem view_computeSpans_error {m : LoadedMap} {e : Error} (h : m.computeSpans.1 = .error e) :
    m.computeSpans.2.view = m.view := by
  cases m with
  | flat f => rw [computeSpans_flat_error h]
  | index file sections merged =>
      rw [computeSpans_index_error h]
      rfl

/-- **Every map that is reached through sections is as it was, or its spans have been computed.** -/
theorem descend?_computeSpans (path : List Nat) : ∀ m : LoadedMap,
    Option.Rel (fun u u' => u' = u ∨ u' = u.computeSpans.2) (m.descend? path)
      (m.computeSpans.2.descend? path) := by
  induction path with
  | nil => exact fun m => .some (Or.inr rfl)
  | cons i path ih =>
      intro m
      cases m with
      | flat f => exact .none
      | index file sections merged =>
          obtain ⟨merged', hspans⟩ := computeSpans_index file sections merged
          rw [hspans, descend?, descend?]
          rcases rel_iff.mp (rel_getElem? (forall₂_computeSpansIn sections 0) i) with
            ⟨hs, hs'⟩ | ⟨s, s', hs, hs', -, hmap⟩
          · rw [hs, hs']
            exact .none
          · rw [hs, hs']
            show Option.Rel _ (s.map.descend? path) (s'.map.descend? path)
            rcases hmap with hmap | hmap
            · rw [hmap]
              cases s.map.descend? path with
              | none => exact .none
              | some u => exact .some (Or.inl rfl)
            · rw [hmap]
              exact ih s.map

/-- A flat map has no sections. -/
theorem eq_of_descend?_flat {f : FlatMap} {path : List Nat} {u : LoadedMap}
    (h : (LoadedMap.flat f).descend? path = some u) : u = .flat f := by
  cases path with
  | nil => exact (Option.some.inj h).symm
  | cons i path => cases h

/-- What is reached from a map that is reached is reached. -/
theorem descend?_append (path path' : List Nat) : ∀ m : LoadedMap,
    m.descend? (path ++ path') = (m.descend? path).bind fun u => u.descend? path' := by
  induction path with
  | nil => exact fun m => rfl
  | cons i path ih =>
      intro m
      cases m with
      | flat f => rfl
      | index file sections merged =>
          rw [List.cons_append, descend?, descend?, Option.bind_assoc]
          exact Option.bind_congr fun s _ => ih s.map

theorem Known.descend {known : Bool} (path : List Nat) : ∀ {m u : LoadedMap}, m.Known known →
    m.descend? path = some u → u.Known known := by
  induction path with
  | nil =>
      intro m u hm hu
      cases hu
      exact hm
  | cons i path ih =>
      intro m u hm hu
      cases hm with
      | flat _ => cases hu
      | index hsections _ =>
          obtain ⟨s, hs, hu⟩ := Option.bind_eq_some_iff.mp hu
          exact ih (hsections s (List.mem_of_getElem? hs)) hu

/-! ## Silent maps -/

/-- Whether no query is ever answered with a generated position. -/
structure Silent (m : LoadedMap) : Prop where
  generatedPositionFor : ∀ source p bias g,
    m.generatedPositionFor source p bias = .ok g → g = {}
  allGeneratedPositionsFor : ∀ source line column found,
    m.allGeneratedPositionsFor source line column = .ok found → found = []

/-- A map without sources is silent. -/
theorem silent_of_sources_nil {f : FlatMap} (h : f.sources.toList = []) : Silent (.flat f) where
  generatedPositionFor source p bias g hg := by
    obtain ⟨v, hv, rfl⟩ := map_eq_ok_iff.mp hg
    rw [View.generatedPositionFor, FlatMap.sourceSlot?_eq hv, h]
    rfl
  allGeneratedPositionsFor source line column found hfound := by
    obtain ⟨v, hv, rfl⟩ := map_eq_ok_iff.mp hfound
    rw [View.allGeneratedPositionsFor_eq, FlatMap.sourceSlot?_eq hv, h]
    rfl

/-- **A map that knows no last column answers as before after its spans have been computed just if
it is silent.** -/
theorem sameAnswers_computeSpans_iff {m m' : LoadedMap} (hm : m.Known false)
    (h : m.computeSpans = (.ok (), m')) : SameAnswers id m m' ↔ m.Silent := by
  have hm' := known_computeSpans m h
  have hbare := sameAnswers_computeSpans m
  rw [h] at hbare
  constructor
  · intro hsame
    constructor
    · intro source p bias g hg
      have hg' := hsame.generatedPositionFor source p bias
      rw [hg, ok_map, map_eq_ok_iff] at hg'
      obtain ⟨g', hg', hid⟩ := hg'
      obtain rfl : g' = g := hid
      rcases hm.answer hg with hempty | ⟨-, hunknown⟩
      · exact hempty
      · rcases hm'.answer hg' with hempty | ⟨-, hknown⟩
        · exact hempty
        · rw [hunknown] at hknown
          cases hknown
    · intro source line column found hfound
      have hfound' := hsame.allGeneratedPositionsFor source line column
      rw [hfound, ok_map, map_eq_ok_iff] at hfound'
      obtain ⟨found', hfound', hid⟩ := hfound'
      rw [List.map_id, List.map_id] at hid
      rw [hid] at hfound'
      refine List.eq_nil_iff_forall_not_mem.mpr fun g hg => ?_
      have hunknown := hm.answers hfound g hg
      rw [hm'.answers hfound' g hg] at hunknown
      cases hunknown
  · intro hsilent
    refine { hbare with generatedPositionFor := fun source p bias => ?_
                        allGeneratedPositionsFor := fun source line column => ?_ }
    · rcases map_eq_map_iff.mp (hbare.generatedPositionFor source p bias) with
        ⟨e, hg, hg'⟩ | ⟨g, g', hg, hg', hsame⟩
      · rw [hg, hg']
      · obtain rfl := hsilent.generatedPositionFor source p bias g hg
        have hline : g'.line = none := congrArg GeneratedPosition.line hsame
        rcases hm'.answer hg' with rfl | ⟨hsome, -⟩
        · rw [hg, hg']
        · rw [hline] at hsome
          cases hsome
    · rcases map_eq_map_iff.mp (hbare.allGeneratedPositionsFor source line column) with
        ⟨e, hfound, hfound'⟩ | ⟨found, found', hfound, hfound', hsame⟩
      · rw [hfound, hfound']
      · obtain rfl := hsilent.allGeneratedPositionsFor source line column found hfound
        rw [hfound, hfound', List.map_eq_nil_iff.mp hsame]

/-! ## Updates that fail -/

/-- **An update leaves a map as it was if the sections that it got through are silent.** -/
theorem sameAnswers_of_silent (m : LoadedMap) : m.Known false →
    (∀ path u, m.descend? path = some u → u.computeSpans.1 = .ok () →
      m.computeSpans.2.descend? path = some u.computeSpans.2 → u.Silent) →
    SameAnswers id m m.computeSpans.2 := by
  induction m using LoadedMap.induction with
  | hflat f =>
      intro hm hsilent
      cases hout : (LoadedMap.flat f).computeSpans.1 with
      | error e =>
          rw [computeSpans_flat_error hout]
          exact .refl _
      | ok =>
          exact (sameAnswers_computeSpans_iff hm (Prod.ext hout rfl)).mpr
            (hsilent [] _ rfl hout rfl)
  | hindex file sections merged ih =>
      intro hm hsilent
      cases hout : (LoadedMap.index file sections merged).computeSpans.1 with
      | error e =>
          rw [computeSpans_index_error hout] at hsilent ⊢
          cases hm with
          | index hknown _ =>
              have hupdated := forall₂_computeSpansIn sections 0
              refine .index sees_id (List.forall₂_of_length_eq_of_get hupdated.length_eq ?_)
                (fun _ => rfl) (fun _ _ _ => rfl) file
              intro i hi hi'
              obtain ⟨hoffset, hmap | hmap⟩ := hupdated.get hi hi'
              · refine ⟨hoffset, ?_⟩
                rw [hmap]
                exact .refl _
              · have hmem := List.get_mem sections ⟨i, hi⟩
                refine ⟨hoffset, ?_⟩
                rw [hmap]
                refine ih _ hmem (hknown _ hmem) fun path u hu hout' hu' => ?_
                refine hsilent (i :: path) u ?_ hout' ?_
                · rw [descend?, List.getElem?_eq_getElem hi]
                  exact hu
                · rw [descend?, List.getElem?_eq_getElem hi', Option.bind_some]
                  exact (congrArg (descend? · path) hmap).trans hu'
      | ok =>
          exact (sameAnswers_computeSpans_iff hm (Prod.ext hout rfl)).mpr
            (hsilent [] _ rfl hout rfl)

/-- At every depth a map answers alike after an update, if the maps that the update got through do.
-/
theorem sameAnswers_descend {seen : GeneratedPosition → GeneratedPosition} {m : LoadedMap}
    (h : ∀ path u, m.descend? path = some u →
      m.computeSpans.2.descend? path = some u.computeSpans.2 → SameAnswers seen u u.computeSpans.2)
    (path : List Nat) : Option.Rel (SameAnswers seen) (m.descend? path)
      (m.computeSpans.2.descend? path) := by
  rcases rel_iff.mp (descend?_computeSpans path m) with ⟨hu, hu'⟩ | ⟨u, u', hu, hu', rfl | rfl⟩
  · exact rel_iff.mpr (Or.inl ⟨hu, hu'⟩)
  · exact rel_iff.mpr (Or.inr ⟨_, _, hu, hu', .refl _⟩)
  · exact rel_iff.mpr (Or.inr ⟨_, _, hu, hu', h path u hu hu'⟩)

/-- **What an update that fails changes.** If the spans of a map that was just loaded cannot be
computed, then the map lists what it listed, and it and all maps that are reached through its
sections answer as before but for last columns. They answer entirely as before just if those of them
that the update got through before it failed are silent. -/
theorem answers_of_failed_computeSpans {r : Record} {m m' : LoadedMap} {e : Error}
    (hm : ofRecord r = .ok m) (h : m.computeSpans = (.error e, m')) :
    m'.view = m.view ∧
      (∀ path, Option.Rel (SameAnswers GeneratedPosition.bare) (m.descend? path)
        (m'.descend? path)) ∧
      ((∀ path, Option.Rel (SameAnswers id) (m.descend? path) (m'.descend? path)) ↔
        ∀ path u, m.descend? path = some u → u.computeSpans.1 = .ok () →
          m'.descend? path = some u.computeSpans.2 → u.Silent) := by
  obtain rfl : m.computeSpans.2 = m' := by rw [h]
  have herror : m.computeSpans.1 = .error e := by rw [h]
  have hknown := Known.ofRecord r hm
  refine ⟨view_computeSpans_error herror,
    sameAnswers_descend fun _ u _ _ => sameAnswers_computeSpans u,
    fun hsame path u hu hok hu' => ?_, fun hsilent => sameAnswers_descend fun path u hu hu' => ?_⟩
  · have hrel := hsame path
    rw [hu, hu', Option.rel_some_some] at hrel
    exact (sameAnswers_computeSpans_iff (hknown.descend path hu) (Prod.ext hok rfl)).mp hrel
  · refine sameAnswers_of_silent u (hknown.descend path hu) fun path' w hw hok hw' => ?_
    refine hsilent (path ++ path') w ?_ hok ?_
    · rw [descend?_append, hu]
      exact hw
    · rw [descend?_append, hu']
      exact hw'

/-- An update that fails after a section without sources changes no answer. -/
theorem answers_of_failed_computeSpans_silent :
    let part (text : String) : Record := { version := some 3, mappings := some text }
    let outer : Record :=
      { version := some 3
        sections := some
          [{ offset := ⟨0, 0⟩, map := some (part "A") },
            { offset := ⟨1, 0⟩, map := some (part "!") }] }
    ∃ m m' e, ofRecord outer = .ok m ∧ m.computeSpans = (.error e, m') ∧ m'.view = m.view ∧
      ∀ path, Option.Rel (SameAnswers id) (m.descend? path) (m'.descend? path) := by
  intro part outer
  have hspans : (ofRecord outer).map (fun m => m.computeSpans.1) =
      .ok (.error (.inSection 1 (.invalidDigit '!'))) := by
    cbv
  have hbad : (ofRecord (part "!")).map (fun m => m.computeSpans.1) =
      .ok (.error (.invalidDigit '!')) := by
    cbv
  obtain ⟨f, hf, hnil⟩ : ∃ f, ofRecord (part "A") = .ok (.flat f) ∧ f.sources.toList = [] :=
    ⟨_, rfl, rfl⟩
  obtain ⟨g, hg⟩ : ∃ g, ofRecord (part "!") = .ok (.flat g) := ⟨_, rfl⟩
  obtain ⟨m, hm, hshape⟩ : ∃ m, ofRecord outer = .ok m ∧ m = ofSections none
      [{ offset := ⟨1, 0⟩, map := .flat f }, { offset := ⟨2, 0⟩, map := .flat g }] := by
    cases hf
    cases hg
    exact ⟨_, rfl, rfl⟩
  rw [hm] at hspans
  rw [hg] at hbad
  have hfailed : m.computeSpans.1 = _ := Except.ok.inj hspans
  have hunread : (LoadedMap.flat g).computeSpans.1 = _ := Except.ok.inj hbad
  obtain ⟨hview, -, hall⟩ := answers_of_failed_computeSpans hm (Prod.ext hfailed rfl)
  refine ⟨m, _, _, hm, Prod.ext hfailed rfl, hview, hall.mpr fun path u hu hok _ => ?_⟩
  -- the file cannot be updated and nor can its second section, so it is the first
  rw [hshape] at hu hfailed
  cases path with
  | nil =>
      cases hu
      rw [hfailed] at hok
      cases hok
  | cons i path =>
      obtain ⟨s, hs, hu⟩ := Option.bind_eq_some_iff.mp hu
      rcases List.mem_pair.mp (List.mem_of_getElem? hs) with rfl | rfl
      · rw [eq_of_descend?_flat hu]
        exact silent_of_sources_nil hnil
      · rw [eq_of_descend?_flat hu, hunread] at hok
        cases hok

/-- **An update that fails can change answers.** The first section keeps its spans although the
second cannot be read. -/
theorem generatedPositionFor_interrupted :
    let part (sources : List String) (text : String) : Record :=
      { version := some 3, sources := some (sources.map some), mappings := some text }
    let outer : Record :=
      { version := some 3
        sections := some
          [{ offset := ⟨0, 0⟩, map := some (part ["a.js"] "AAAA") },
            { offset := ⟨1, 0⟩, map := some (part [] "!") }] }
    ∃ m m' e, ofRecord outer = .ok m ∧ m.computeSpans = (.error e, m') ∧
      m.generatedPositionFor "a.js" ⟨1, 0⟩ .greatestLowerBound =
        .ok { line := some 1, column := some 0 } ∧
      m'.generatedPositionFor "a.js" ⟨1, 0⟩ .greatestLowerBound =
        .ok { line := some 1, column := some 0, lastColumn := some Coordinate.unbounded } ∧
      ¬ SameAnswers id m m' := by
  intro part outer
  have hcomputed : (ofRecord outer).map (fun m => (m.computeSpans.1,
      m.generatedPositionFor "a.js" ⟨1, 0⟩ .greatestLowerBound,
      m.computeSpans.2.generatedPositionFor "a.js" ⟨1, 0⟩ .greatestLowerBound)) =
        .ok (.error (.inSection 1 (.invalidDigit '!')),
          .ok { line := some 1, column := some 0 },
          .ok { line := some 1, column := some 0, lastColumn := some Coordinate.unbounded }) := by
    cbv
  obtain ⟨m, hm, hfailed⟩ := map_eq_ok_iff.mp hcomputed
  obtain ⟨hspans, hanswers⟩ := Prod.mk.inj hfailed
  obtain ⟨hbefore, hafter⟩ := Prod.mk.inj hanswers
  refine ⟨m, _, _, hm, Prod.ext hspans rfl, hbefore, hafter, fun hsame => ?_⟩
  have hanswer := hsame.generatedPositionFor "a.js" ⟨1, 0⟩ .greatestLowerBound
  rw [hbefore, hafter] at hanswer
  cases hanswer

end LoadedMap

end SourceMap

import Mathlib
import SourceMap.Proofs.Assembly
import SourceMap.Proofs.Spans

/-!
# Last columns

The sections of an index map compute their spans each for itself, and the merged view computes those
of all entries. Both give the same last columns, which are right for the listed mappings, at the
positions where the section also lists what comes next on the line (`lastColumn_computeSpans`).
Where another section goes on with the line, the section that ends knows nothing of what follows
(`lastColumn_split_line`).
-/

set_option autoImplicit false

namespace SourceMap

open Position (SpansTo)

namespace LoadedMap

/-! ## Lines that go on -/

/-- Whether a section that lists a position also lists what comes next on its line, if anything
does, at every depth. -/
inductive NextWithin : Position → LoadedMap → Prop
  | flat (g : Position) (f : FlatMap) : NextWithin g (.flat f)
  | index {g : Position} {file : Option String} {sections : List (Placed LoadedMap)}
      {merged : Except Error View} :
      (∀ s ∈ sections, ∀ part v, Merge.Lists (given s) part → merged = .ok v →
        g ∈ part.map Mapping.generated → ∀ b ∈ v.mappings .generated,
          g.FollowedBy b.generated → ∃ c ∈ part, g.FollowedBy c.generated ∧
            c.generated.column ≤ b.generated.column) →
      (∀ s ∈ sections, ∀ q, Position.ShiftedTo s.offset q g → NextWithin q s.map) →
      NextWithin g (.index file sections merged)

/-- Sections that list a position only together with the next column list what comes next. -/
theorem NextWithin.ofSections {g : Position} {file : Option String}
    {sections : List (Placed LoadedMap)} (hflat : ∀ s ∈ sections, ∃ f, s.map = .flat f)
    (h : ∀ s ∈ sections, ∀ part, Merge.Lists (given s) part → g ∈ part.map Mapping.generated →
      ∃ c ∈ part, c.generated.line = g.line ∧ c.generated.column.toNat = g.column.toNat + 1) :
    (LoadedMap.ofSections file sections).NextWithin g := by
  refine .index ?_ ?_
  · intro s hs part v hpart _ hg b _ hfollows
    obtain ⟨c, hc, hline, hcolumn⟩ := h s hs part hpart hg
    have hlt := UInt32.lt_iff_toNat_lt.mp hfollows.2
    refine ⟨c, hc, ⟨hline, UInt32.lt_iff_toNat_lt.mpr ?_⟩, UInt32.le_iff_toNat_le.mpr ?_⟩
    · omega
    · omega
  · intro s hs q _
    obtain ⟨f, hf⟩ := hflat s hs
    rw [hf]
    exact .flat q f

/-! ## Answers of sections -/

/-- An answer of an index map is nothing, or that of a section in the coordinates of the file. -/
theorem generatedPositionIn_cases {source : String} {p : Position} {bias : Bias}
    {sections : List (Placed LoadedMap)} : ∀ {index : Nat} {answer : GeneratedPosition},
      generatedPositionIn source p bias index sections = .ok answer →
      answer = {} ∨ ∃ s ∈ sections, ∃ found q,
        s.map.generatedPositionFor source p bias = .ok found ∧ found.IsAt q ∧
        toGlobalAnswer s.offset found q = .ok answer := by
  induction sections with
  | nil =>
      rintro index answer ⟨⟩
      exact Or.inl rfl
  | cons s sections ih =>
      intro index answer h
      obtain ⟨offset, m⟩ := s
      have hrest (hin : generatedPositionIn source p bias (index + 1) sections = .ok answer) :
          answer = {} ∨ ∃ s ∈ ({ offset, map := m } : Placed LoadedMap) :: sections, ∃ found q,
            s.map.generatedPositionFor source p bias = .ok found ∧ found.IsAt q ∧
            toGlobalAnswer s.offset found q = .ok answer :=
        (ih hin).imp_right fun ⟨s, hs, hfound⟩ => ⟨s, List.mem_cons_of_mem _ hs, hfound⟩
      rw [generatedPositionIn] at h
      split at h
      · split at h
        · cases h
        · rename_i found hfound
          split at h
          · rename_i line column hline hcolumn
            split at h
            · cases h
            · rename_i answer' hglobal
              cases h
              exact Or.inr ⟨_, List.mem_cons_self, found, { line, column }, hfound,
                ⟨hline, hcolumn⟩, hglobal⟩
          · exact hrest h
      · exact hrest h

/-- An answer that is a position is that of a section. -/
theorem exists_section_of_generatedPositionIn {source : String} {p : Position} {bias : Bias}
    {sections : List (Placed LoadedMap)} {index : Nat} {answer : GeneratedPosition} {g : Position}
    (h : generatedPositionIn source p bias index sections = .ok answer) (hat : answer.IsAt g) :
    ∃ s ∈ sections, ∃ found q,
      s.map.generatedPositionFor source p bias = .ok found ∧ found.IsAt q ∧
      toGlobalAnswer s.offset found q = .ok answer := by
  rcases generatedPositionIn_cases h with rfl | hsection
  · obtain ⟨⟨⟩, -⟩ := hat
  · exact hsection

/-- An answer in the coordinates of the file is at the shifted position. -/
theorem toGlobalAnswer_eq_ok {offset q g : Position} {found answer : GeneratedPosition}
    (h : toGlobalAnswer offset found q = .ok answer) (hat : answer.IsAt g) :
    Position.ShiftedTo offset q g ∧ answer.lastColumn = found.lastColumn.map fun last =>
      if last = Coordinate.unbounded then last
      else (offset.shiftColumn? q.line last).getD Coordinate.unbounded := by
  unfold toGlobalAnswer at h
  split at h
  · cases h
  · rename_i g' hg'
    cases h
    obtain ⟨line, column⟩ := g
    obtain ⟨line', column'⟩ := g'
    obtain ⟨hline, hcolumn⟩ := hat
    cases hline
    cases hcolumn
    exact ⟨Position.toGlobal?_eq_some_iff.mp hg', rfl⟩

/-- Where the spans of an index map are computed, those of all sections are, and those of the merged
view. -/
theorem computeSpans_index_eq_ok {file : Option String} {sections : List (Placed LoadedMap)}
    {merged : Except Error View} {m' : LoadedMap}
    (h : computeSpans (.index file sections merged) = (.ok (), m')) :
    ∃ sections' v, merged = .ok v ∧ m' = .index file sections' (.ok v.withSpans) ∧
      List.Forall₂ (fun s s' => s'.offset = s.offset ∧
        s.map.computeSpans = (.ok (), s'.map)) sections sections' := by
  rw [computeSpans] at h
  split at h
  · cases h
  · rename_i sections' hspans
    obtain ⟨houtcome, rfl⟩ := Prod.mk.inj h
    obtain ⟨v, rfl, -⟩ := map_eq_ok_iff.mp houtcome
    exact ⟨sections', v, rfl, rfl, forall₂_of_computeSpansIn hspans⟩

/-- Positions of a section are gathered where they are shifted to. -/
theorem Gathers.exists_positions {sections : List (Placed LoadedMap)} {listed : List Mapping}
    (h : Gathers sections listed) {s : Placed LoadedMap} (hs : s ∈ sections) :
    ∃ ms part, s.map.mappings .generated = .ok ms ∧
      List.Forall₂ (Mapping.ShiftedTo s.offset) ms part ∧
      List.Forall₂ (Position.ShiftedTo s.offset) (ms.map Mapping.generated)
        (part.map Mapping.generated) ∧
      (part.map Mapping.generated).Subperm (listed.map Mapping.generated) := by
  obtain ⟨ms, part, hms, hshift, sub, hperm, hsublist⟩ := h.exists_part hs
  refine ⟨ms, part, hms, hshift, ?_, _, hperm.map _, hsublist.map _⟩
  rw [List.forall₂_map_left_iff, List.forall₂_map_right_iff]
  exact hshift.imp fun _ _ hab => hab.1

/-- The span of an answer of a flat map ends where the listed mappings say, if not more than one is
listed at its position. -/
theorem exists_spansTo_flat {source : String} {p : Position} {bias : Bias} {f : FlatMap} {v : View}
    (hv : f.view = .ok v) (hinOrder : v.table.InOrder) {answer : GeneratedPosition} {g : Position}
    (hanswer : (LoadedMap.flat f.withSpans).generatedPositionFor source p bias = .ok answer)
    (hat : answer.IsAt g) (halone : ((v.mappings .generated).map Mapping.generated).count g ≤ 1) :
    g ∈ (v.mappings .generated).map Mapping.generated ∧ ∃ last, answer.lastColumn = some last ∧
      SpansTo ((v.mappings .generated).map Mapping.generated) g last := by
  have hv' : f.withSpans.view = .ok v.withSpans := by
    rw [FlatMap.view_withSpans, hv, ok_map]
  rw [generatedPositionFor_flat hv'] at hanswer
  cases hanswer
  obtain ⟨e, he, rfl, hanswer⟩ := View.exists_entry_of_isAt hat
  obtain ⟨last, hlast, hends⟩ := View.exists_spansTo hinOrder he halone
  refine ⟨?_, last, by rw [hanswer]; exact hlast, hends⟩
  have hmem : e.generated ∈ (v.withSpans.mappings .generated).map Mapping.generated := by
    rw [View.map_generated_mappings]
    exact List.mem_map_of_mem he
  rwa [View.mappings_withSpans] at hmem

/-- **The span of an answer ends where the listed mappings say**, if its section lists what comes
next, and not more than one mapping is listed at its position. -/
theorem Assembled.exists_spansTo {source : String} {p : Position} {bias : Bias} {m : LoadedMap}
    (h : m.Assembled) : ∀ {m' : LoadedMap} {listed : List Mapping},
      m.computeSpans = (.ok (), m') → m.mappings .generated = .ok listed →
      ∀ {answer : GeneratedPosition} {g : Position}, m.NextWithin g →
        m'.generatedPositionFor source p bias = .ok answer → answer.IsAt g →
        (listed.map Mapping.generated).count g ≤ 1 →
        g ∈ listed.map Mapping.generated ∧ ∃ last, answer.lastColumn = some last ∧
          SpansTo (listed.map Mapping.generated) g last := by
  induction h with
  | @flat f hview =>
      rintro m' listed hspans hlisted answer g - hanswer hat halone
      obtain ⟨v, hv, rfl⟩ := map_eq_ok_iff.mp hlisted
      obtain ⟨-, rfl⟩ := Prod.mk.inj hspans
      exact exists_spansTo_flat hv (hview v hv) hanswer hat halone
  | @index file sections merged hsections hmerged ih =>
      intro m' listed hspans hlisted answer g hnext hanswer hat halone
      obtain ⟨sections', v, rfl, rfl, hpairs⟩ := computeSpans_index_eq_ok hspans
      cases hlisted
      obtain _ | ⟨hnext, hdeep⟩ := hnext
      -- the answer is that of a section, whose spans have been computed
      rw [generatedPositionFor] at hanswer
      obtain ⟨s', hs', found, q, hfound, hq, hglobal⟩ :=
        exists_section_of_generatedPositionIn hanswer hat
      obtain ⟨s, hs, hoffset, hspans'⟩ := exists_of_forall₂_right hpairs s' hs'
      rw [hoffset] at hglobal
      obtain ⟨hqg, hlast⟩ := toGlobalAnswer_eq_ok hglobal hat
      obtain ⟨ms, part, hms, hshift, hpositions, hsub⟩ :=
        (hmerged v rfl).gathers.exists_positions hs
      have halone' : (ms.map Mapping.generated).count q ≤ 1 :=
        (Position.count_le_of_shiftedTo hpositions hqg).trans ((hsub.count_le g).trans halone)
      obtain ⟨hmem, last, hlast', hends⟩ := ih s hs hspans' hms (hdeep s hs q hqg) hfound hq halone'
      obtain ⟨g', hg', hqg'⟩ := exists_of_forall₂ hpositions q hmem
      rw [hqg'.unique hqg] at hg'
      refine ⟨hsub.subset hg', _, by rw [hlast, hlast', Option.map_some],
        (hends.shift hpositions hqg).mono hsub.subset ?_⟩
      -- what comes next on the line is listed by this section too
      intro q' hq' hfollows
      obtain ⟨b, hb, rfl⟩ := List.mem_map.mp hq'
      obtain ⟨c, hc, hnearer⟩ := hnext s hs part v ⟨ms, hms, hshift⟩ rfl hg' b hb hfollows
      exact ⟨c.generated, List.mem_map_of_mem hc, hnearer⟩

/-- **Both queries give the last column that the listing says.** After the spans of an index map
have been computed, the map lists what it listed. Where one mapping is listed alone, all that the
query for all places has at its position ends in the column before the next listed mapping on the
line, or has no bound just if none follows; and there is such an answer if the mapping has an
original location. The answer for one place ends there too if its section lists what comes next.
This is about string tables whose slots have numbers of 32 bits. -/
theorem lastColumn_computeSpans {m m' : LoadedMap} {sections : List (Placed LoadedMap)}
    (hm : m.Reachable) (hsections : m.sections? = some sections)
    (hspans : m.computeSpans = (.ok (), m')) : ∃ listed, m.mappings .generated = .ok listed ∧
      m'.mappings .generated = .ok listed ∧ ∀ a ∈ listed,
        (listed.map Mapping.generated).count a.generated = 1 → ∃ last,
          SpansTo (listed.map Mapping.generated) a.generated last ∧
          (last = Coordinate.unbounded ↔ ∀ b ∈ listed, ¬ a.generated.FollowedBy b.generated) ∧
          (m.NextWithin a.generated → ∀ source p bias answer,
            m'.generatedPositionFor source p bias = .ok answer → answer.IsAt a.generated →
              answer.lastColumn = some last) ∧
          (∀ source line column answers,
            m'.allGeneratedPositionsFor source line column = .ok answers →
              ∀ g ∈ answers, g.IsAt a.generated → g.lastColumn = some last) ∧
          ∀ o, a.original = some o → ∃ answers, m'.allGeneratedPositionsFor o.source
            o.position.line (some o.position.column) = .ok answers ∧
              ∃ g ∈ answers, g.IsAt a.generated := by
  have hassembled := hm.assembled
  have hmappings := mappings_computeSpans m
  rw [hspans] at hmappings
  obtain ⟨v, hv, hv'⟩ : ∃ v, m.view = .ok v ∧ m'.view = .ok v.withSpans := by
    cases m with
    | flat f => cases hsections
    | index file sections merged =>
        obtain ⟨sections', v, rfl, rfl, -⟩ := computeSpans_index_eq_ok hspans
        exact ⟨v, rfl, rfl⟩
  have hmerged := (hassembled.merged hsections hv).withSpans
  have hlisted : m.mappings .generated = .ok (v.mappings .generated) := by
    rw [mappings, hv, ok_map]
  refine ⟨v.mappings .generated, hlisted, hmappings.trans hlisted, fun a ha halone => ?_⟩
  rw [← View.mappings_withSpans] at ha
  -- the merged view has an entry with a span for the mapping
  obtain ⟨e, he, rfl⟩ := List.mem_map.mp ha
  obtain ⟨last, hlast, hends⟩ := View.exists_spansTo (hassembled.inOrder hv) he halone.le
  have hunbounded := hends.eq_unbounded_iff
  simp only [List.forall_mem_map] at hunbounded
  refine ⟨last, hends, hunbounded, ?_, ?_, ?_⟩
  · intro hnext source p bias answer hanswer hat
    obtain ⟨-, last', hlast', hends'⟩ :=
      hassembled.exists_spansTo hspans hlisted hnext hanswer hat halone.le
    rw [hlast', hends'.unique hends]
  · intro source line column answers hanswers g hg hat
    rw [allGeneratedPositionsFor, hv', ok_map] at hanswers
    cases hanswers
    obtain ⟨e', he', rfl⟩ := View.exists_entry_of_mem hg
    have hsame : e'.generated = (v.withSpans.mapping e).generated := by
      obtain ⟨hline, hcolumn⟩ := hat
      obtain ⟨⟨line', column'⟩, origin', last'⟩ := e'
      cases hline
      cases hcolumn
      rfl
    obtain ⟨last', hlast', hends'⟩ :=
      View.exists_spansTo (hassembled.inOrder hv) he' (by rw [hsame]; exact halone.le)
    rw [hsame] at hends'
    rw [View.positionOf, hlast', hends'.unique hends]
  · intro o ho
    have hknows := View.knows_of_nodup hmerged.root hmerged.nodup o.source
    have hsound := (hm.sound.view hv).withSpans
    refine ⟨_, ?_, View.exists_allGeneratedPositionsFor hsound ha ho hknows⟩
    rw [allGeneratedPositionsFor, hv', ok_map]

/-- The second section splits the line of the first, but not behind the first mapping. -/
theorem lastColumn_computeSpans_split :
    let flat : Record :=
      { version := some 3, sources := some [some "a.js"], mappings := some "AAAA,C" }
    let outer : Record :=
      { version := some 3
        sections := some
          [{ offset := ⟨0, 0⟩, map := some flat }, { offset := ⟨0, 5⟩, map := some flat }] }
    let a : Mapping := { generated := ⟨1, 0⟩, original := some ⟨"a.js", ⟨1, 0⟩⟩ }
    let listed : List Mapping :=
      [a, { generated := ⟨1, 1⟩ },
        { generated := ⟨1, 5⟩, original := some ⟨"a.js", ⟨1, 0⟩⟩ }, { generated := ⟨1, 6⟩ }]
    ∃ m m', ofRecord outer = .ok m ∧ m.NextWithin a.generated ∧
      m.computeSpans = (.ok (), m') ∧ m.mappings .generated = .ok listed ∧
      ∃ last, SpansTo (listed.map Mapping.generated) a.generated last ∧
        (∀ source p bias answer, m'.generatedPositionFor source p bias = .ok answer →
          answer.IsAt a.generated → answer.lastColumn = some last) ∧
        ∃ answers, m'.allGeneratedPositionsFor "a.js" 1 (some 0) = .ok answers ∧
          ∃ g ∈ answers, g.IsAt a.generated := by
  intro flat outer a listed
  have hflat : (ofRecord flat).bind (fun m => m.mappings .generated) =
      .ok [{ generated := ⟨1, 0⟩, original := some ⟨"a.js", ⟨1, 0⟩⟩ },
        { generated := ⟨1, 1⟩ }] := by
    cbv
  have hcomputed : (ofRecord outer).map (fun m => (m.computeSpans.1, m.mappings .generated)) =
      .ok (.ok (), .ok listed) := by
    cbv
  obtain ⟨f, hf⟩ : ∃ f, ofRecord flat = .ok (.flat f) := ⟨_, rfl⟩
  rw [hf] at hflat
  obtain ⟨m, hm, hshape⟩ : ∃ m, ofRecord outer = .ok m ∧ m = ofSections none
      [{ offset := ⟨1, 0⟩, map := .flat f }, { offset := ⟨1, 5⟩, map := .flat f }] := by
    cases hf
    exact ⟨_, rfl, rfl⟩
  rw [hm] at hcomputed
  obtain ⟨hspans, hlisted⟩ := Prod.mk.inj (Except.ok.inj hcomputed)
  have hsections : ∃ sections, m.sections? = some sections := by
    rw [hshape]
    exact ⟨_, rfl⟩
  obtain ⟨sections, hsections⟩ := hsections
  -- the first section lists the next column, and the second does not list the position
  have hnext : m.NextWithin a.generated := by
    rw [hshape]
    refine .ofSections (by simp) ?_
    rintro s hs part ⟨ms, hms, hshift⟩ ha
    rcases List.mem_pair.mp hs with rfl | rfl
    · obtain rfl : ms = _ := Except.ok.inj (hms.symm.trans hflat)
      obtain ⟨c, hc, ⟨hline, hcolumn⟩, -⟩ :=
        exists_of_forall₂ hshift { generated := ⟨1, 1⟩ } (by simp)
      simp [given] at hline hcolumn
      exact ⟨c, hc, UInt32.toNat_inj.mp hline, hcolumn⟩
    · obtain rfl : ms = _ := Except.ok.inj (hms.symm.trans hflat)
      obtain ⟨a', ha', hat⟩ := List.mem_map.mp ha
      obtain ⟨c, hc, ⟨-, hcolumn⟩, -⟩ := exists_of_forall₂_right hshift a' ha'
      rw [hat] at hcolumn
      rcases List.mem_pair.mp hc with rfl | rfl
      · simp [given, a] at hcolumn
      · simp [given, a] at hcolumn
  obtain ⟨listed', hlisted', -, hall⟩ :=
    lastColumn_computeSpans (.ofRecord hm) hsections (Prod.ext hspans rfl)
  have hsame : listed' = listed := Except.ok.inj (hlisted'.symm.trans hlisted)
  rw [hsame] at hall
  obtain ⟨last, hends, -, hone, -, hexists⟩ := hall a (by simp [listed]) (by decide)
  exact ⟨m, _, hm, hnext, Prod.ext hspans rfl, hlisted, last, hends, hone hnext, hexists _ rfl⟩

/-- Where two sections split a line, the span of the first has no bound in the answer of the
section, though it has one in the merged view. -/
theorem lastColumn_split_line :
    let part (source : String) : Record :=
      { version := some 3, sources := some [some source], mappings := some "AAAA" }
    let outer : Record :=
      { version := some 3
        sections := some
          [{ offset := ⟨0, 0⟩, map := some (part "a.js") },
            { offset := ⟨0, 10⟩, map := some (part "b.js") }] }
    ∃ m m', ofRecord outer = .ok m ∧ Throughout EndsBefore m ∧ m.computeSpans = (.ok (), m') ∧
      m'.mappings .generated = .ok
        [{ generated := ⟨1, 0⟩, original := some ⟨"a.js", ⟨1, 0⟩⟩ },
          { generated := ⟨1, 10⟩, original := some ⟨"b.js", ⟨1, 0⟩⟩ }] ∧
      m'.generatedPositionFor "a.js" ⟨1, 0⟩ .greatestLowerBound =
        .ok { line := some 1, column := some 0, lastColumn := some Coordinate.unbounded } ∧
      m'.allGeneratedPositionsFor "a.js" 1 (some 0) =
        .ok [{ line := some 1, column := some 0, lastColumn := some 9 }] := by
  intro part outer
  have hcomputed : (ofRecord outer).map (fun m => (m.computeSpans.1,
      m.computeSpans.2.mappings .generated,
      m.computeSpans.2.generatedPositionFor "a.js" ⟨1, 0⟩ .greatestLowerBound,
      m.computeSpans.2.allGeneratedPositionsFor "a.js" 1 (some 0))) =
        .ok (.ok (),
          .ok [{ generated := ⟨1, 0⟩, original := some ⟨"a.js", ⟨1, 0⟩⟩ },
            { generated := ⟨1, 10⟩, original := some ⟨"b.js", ⟨1, 0⟩⟩ }],
          .ok { line := some 1, column := some 0, lastColumn := some Coordinate.unbounded },
          .ok [{ line := some 1, column := some 0, lastColumn := some 9 }]) := by
    cbv
  have hfirst : (ofRecord (part "a.js")).bind (fun m => m.mappings .generated) =
      .ok [{ generated := ⟨1, 0⟩, original := some ⟨"a.js", ⟨1, 0⟩⟩ }] := by
    cbv
  obtain ⟨f, hf⟩ : ∃ f, ofRecord (part "a.js") = .ok (.flat f) := ⟨_, rfl⟩
  obtain ⟨g, hg⟩ : ∃ g, ofRecord (part "b.js") = .ok (.flat g) := ⟨_, rfl⟩
  rw [hf] at hfirst
  obtain ⟨m, hm, hshape⟩ : ∃ m, ofRecord outer = .ok m ∧ m = ofSections none
      [{ offset := ⟨1, 0⟩, map := .flat f }, { offset := ⟨1, 10⟩, map := .flat g }] := by
    cases hf
    cases hg
    exact ⟨_, rfl, rfl⟩
  rw [hm] at hcomputed
  obtain ⟨hspans, hrest⟩ := Prod.mk.inj (Except.ok.inj hcomputed)
  obtain ⟨hlisted, hrest⟩ := Prod.mk.inj hrest
  obtain ⟨hanswer, hall⟩ := Prod.mk.inj hrest
  refine ⟨m, _, hm, ?_, Prod.ext hspans rfl, hlisted, hanswer, hall⟩
  rw [hshape]
  refine .index (.cons_cons ?_ (.singleton _)) ?_
  · rintro part' ⟨ms, hms, hshift⟩ a ha
    obtain ⟨b, hb, ⟨hline, hcolumn⟩, -⟩ := exists_of_forall₂_right hshift a ha
    have hms' : ms = _ := Except.ok.inj (hms.symm.trans hfirst)
    rw [hms'] at hb
    rw [List.mem_singleton.mp hb] at hline hcolumn
    rw [Position.lt_iff]
    simp [given] at hline hcolumn ⊢
    omega
  · intro s hs
    rcases List.mem_pair.mp hs with rfl | rfl
    · exact .flat f
    · exact .flat g

end LoadedMap

end SourceMap

import Mathlib
import SourceMap.Proofs.Assembly
import SourceMap.Proofs.ExactMatch
import SourceMap.Proofs.SourceRoot

/-!
# One place and all places

Where the code of an original place has gone is asked of the sections of an index map, each of which
looks the source up by its name as it is seen from its own root. All the places that it has gone to
are found in the merged view, where sources have their full names. So the first answer is among the
others when these are asked for by the full name under which the section lists the source
(`mem_allGeneratedPositionsFor_of_answersAt`). A name relative to the root of the section is not
that name.
-/

set_option autoImplicit false

namespace SourceMap

/-! ## Flat maps -/

/-- The full name under which a flat map lists a source that it is asked for. -/
def FlatMap.listedAs (f : FlatMap) (source : String) : String :=
  SourceRoot.resolve f.root (SourceRoot.relativize f.root source)

/-- A source is listed under its own name if this comes from a name that can be reversed. -/
theorem FlatMap.listedAs_of_reversible {f : FlatMap} {source : String}
    (h : ∃ name, SourceRoot.Reversible f.root name ∧ SourceRoot.resolve f.root name = source) :
    f.listedAs source = source := by
  obtain ⟨name, hreversible, rfl⟩ := h
  rw [FlatMap.listedAs, hreversible.relativize_resolve]

/-- A slot that is found holds the source under the name it is listed by. -/
theorem FlatMap.sourceAt_of_sourceSlot? {f : FlatMap} {v : View} (hv : f.view = .ok v)
    {source : String} {slot : Nat} (hslot : v.sourceSlot? source = some slot) :
    v.sourceAt slot = f.listedAs source := by
  obtain ⟨t, -, rfl⟩ := map_eq_ok_iff.mp hv
  rw [View.sourceAt, StringTable.get?_of_indexOf? hslot]
  rfl

namespace LoadedMap

/-! ## Where a query is answered -/

/-- Whether the query for an original place ends at a flat map, at any depth, that has a mapping at
the very place: no section before it that has the source has an answer. -/
inductive AnswersAt (source : String) (p : Position) (bias : Bias) : LoadedMap → FlatMap → Prop
  | flat {f : FlatMap} {v : View} {slot : Nat} {e : Entry} : f.view = .ok v →
      v.sourceSlot? source = some slot → e ∈ v.table.generated.toList →
      e.place? = some ⟨slot, p⟩ → AnswersAt source p bias (.flat f) f
  | index {file : Option String} {before after : List (Placed LoadedMap)} {s : Placed LoadedMap}
      {merged : Except Error View} {f : FlatMap} :
      (∀ t ∈ before, hasSource source t.map = true →
        t.map.generatedPositionFor source p bias = .ok {}) →
      AnswersAt source p bias s.map f →
      AnswersAt source p bias (.index file (before ++ s :: after) merged) f

section

variable {source : String} {p : Position} {bias : Bias} {m : LoadedMap} {f : FlatMap}

/-- The map that answers has the source. -/
theorem AnswersAt.hasSource (h : AnswersAt source p bias m f) :
    LoadedMap.hasSource source m = true := by
  induction h with
  | flat hv hslot _ _ => exact hasSource_flat hv hslot
  | index _ _ ih =>
      rw [LoadedMap.hasSource]
      exact anyHasSource_of_mem (List.mem_append_right _ List.mem_cons_self) ih

/-- **The answer is a listed mapping at the very place**, whose source is listed under its full
name. -/
theorem AnswersAt.exists_listed (h : AnswersAt source p bias m f) : m.Assembled →
    ∀ {listed : List Mapping}, m.mappings .generated = .ok listed →
      ∃ answer, m.generatedPositionFor source p bias = .ok answer ∧ ∃ a ∈ listed,
        answer.IsAt a.generated ∧ a.original = some ⟨f.listedAs source, p⟩ := by
  induction h with
  | @flat f v slot e hv hslot he hplace =>
      intro _ listed hlisted
      rw [mappings_flat hv] at hlisted
      cases hlisted
      obtain ⟨e', he', hplace', hanswer⟩ := View.generatedPositionFor_exact hslot he hplace bias
      refine ⟨_, generatedPositionFor_flat hv source p bias, v.mapping e',
        List.mem_map_of_mem he', ?_, ?_⟩
      · rw [hanswer]
        exact ⟨rfl, rfl⟩
      · rw [View.mapping, hplace', Option.map_some, FlatMap.sourceAt_of_sourceSlot? hv hslot]
  | @index file before after s merged f hbefore hs ih =>
      intro hassembled listed hlisted
      have hmem : s ∈ before ++ s :: after := List.mem_append_right _ List.mem_cons_self
      obtain ⟨v, hv, rfl⟩ := map_eq_ok_iff.mp hlisted
      have hmerged := hassembled.merged rfl hv
      obtain ⟨ms, part, hms, hshift, hsub⟩ := hmerged.gathers.exists_part hmem
      obtain ⟨found, hfound, b, hb, hat, horiginal⟩ := ih (hassembled.section rfl hmem) hms
      obtain ⟨a, ha, hposition, hsame, -⟩ := exists_of_forall₂ hshift b hb
      obtain ⟨answer, hanswer, hat'⟩ :=
        generatedPositionIn_cons hs.hasSource hfound hat hposition (0 + before.length) after
      refine ⟨answer, ?_, a, hsub.subset ha, hat', hsame.trans horiginal⟩
      rw [generatedPositionFor, generatedPositionIn_append hbefore, hanswer]

/-- **The answer for one place is among those for all.** If the query for an original place ends at
a section that has a mapping at the very place, the answer is a listed mapping at this place, under
the full name of the source, and it is among all that are found there by that name. The source may
be asked for by any name that the section understands; it is the full name if it comes from a name
that can be reversed. This is about string tables whose slots have numbers of 32 bits. -/
theorem mem_allGeneratedPositionsFor_of_answersAt {sections : List (Placed LoadedMap)}
    (hm : m.Reachable) (hsections : m.sections? = some sections) {listed : List Mapping}
    (hlisted : m.mappings .generated = .ok listed) (h : AnswersAt source p bias m f) :
    (∃ answer answers, ∃ a ∈ listed, m.generatedPositionFor source p bias = .ok answer ∧
      answer.IsAt a.generated ∧ a.original = some ⟨f.listedAs source, p⟩ ∧
      m.allGeneratedPositionsFor (f.listedAs source) p.line (some p.column) = .ok answers ∧
      ∃ g ∈ answers, g.IsAt a.generated) ∧
    ((∃ name, SourceRoot.Reversible f.root name ∧ SourceRoot.resolve f.root name = source) →
      f.listedAs source = source) := by
  have hassembled := hm.assembled
  obtain ⟨answer, hanswer, a, ha, hat, horiginal⟩ := h.exists_listed hassembled hlisted
  obtain ⟨v, hv, rfl⟩ := map_eq_ok_iff.mp hlisted
  have hmerged := hassembled.merged hsections hv
  -- the merged view looks the full name up in its own slot
  have hknows := View.knows_of_nodup hmerged.root hmerged.nodup (f.listedAs source)
  have hmem := View.exists_allGeneratedPositionsFor (hm.sound.view hv) ha horiginal hknows
  refine ⟨⟨answer, v.allGeneratedPositionsFor (f.listedAs source) p.line (some p.column), a, ha,
    hanswer, hat, horiginal, ?_, hmem⟩, FlatMap.listedAs_of_reversible⟩
  rw [allGeneratedPositionsFor, hv, ok_map]

end

/-- A section without sources comes first, and the source of the second is asked for by its name
relative to the root of that section. -/
theorem mem_allGeneratedPositionsFor_of_answersAt_second :
    let first : Record := { version := some 3 }
    let second : Record :=
      { version := some 3, sourceRoot := some "/src", sources := some [some "/src/a.js"]
        mappings := some "AAAA" }
    let outer : Record :=
      { version := some 3
        sections := some
          [{ offset := ⟨0, 0⟩, map := some first }, { offset := ⟨2, 4⟩, map := some second }] }
    let listed : List Mapping :=
      [{ generated := ⟨3, 4⟩, original := some ⟨"/src/a.js", ⟨1, 0⟩⟩ }]
    ∃ m sections f, ofRecord outer = .ok m ∧ m.sections? = some sections ∧
      m.mappings .generated = .ok listed ∧
      AnswersAt "a.js" ⟨1, 0⟩ .leastUpperBound m f ∧ f.listedAs "a.js" = "/src/a.js" ∧
      ∃ answer answers, ∃ a ∈ listed,
        m.generatedPositionFor "a.js" ⟨1, 0⟩ .leastUpperBound = .ok answer ∧
        answer.IsAt a.generated ∧
        m.allGeneratedPositionsFor "/src/a.js" 1 (some 0) = .ok answers ∧
        ∃ g ∈ answers, g.IsAt a.generated := by
  intro first second outer listed
  have hlisted : (ofRecord outer).bind (fun m => m.mappings .generated) = .ok listed := by
    cbv
  have hmissing : (ofRecord first).map (LoadedMap.hasSource "a.js") = .ok false := by
    cbv
  have hview : (ofRecord second).bind (fun m => m.view.map fun v => (v.sourceSlot? "a.js",
      v.table.generated.toList)) =
        .ok (some 0, [{ generated := ⟨1, 0⟩, origin := some { place := ⟨0, ⟨1, 0⟩⟩ } }]) := by
    cbv
  obtain ⟨f₁, hf₁⟩ : ∃ f, ofRecord first = .ok (.flat f) := ⟨_, rfl⟩
  obtain ⟨f, hf, hroot⟩ : ∃ f, ofRecord second = .ok (.flat f) ∧ f.root = some "/src" := by
    refine ⟨_, rfl, ?_⟩
    simp
  rw [hf₁] at hmissing
  rw [hf] at hview
  obtain ⟨m, hm, hshape⟩ : ∃ m, ofRecord outer = .ok m ∧ m = ofSections none
      [{ offset := ⟨1, 0⟩, map := .flat f₁ }, { offset := ⟨3, 4⟩, map := .flat f }] := by
    cases hf₁
    cases hf
    exact ⟨_, rfl, rfl⟩
  rw [hm] at hlisted
  obtain ⟨v, hv, hparts⟩ := map_eq_ok_iff.mp hview
  obtain ⟨hslot, hentries⟩ := Prod.mk.inj hparts
  have hanswers : AnswersAt "a.js" ⟨1, 0⟩ .leastUpperBound m f := by
    rw [hshape]
    show AnswersAt "a.js" ⟨1, 0⟩ _ (.index none ([_] ++ _ :: []) _) f
    refine .index ?_
      (.flat hv hslot (by rw [hentries]; exact List.mem_singleton_self _) rfl)
    intro t ht hsource
    rw [List.mem_singleton.mp ht, Except.ok.inj hmissing] at hsource
    cases hsource
  have hfull : f.listedAs "a.js" = "/src/a.js" := by
    rw [FlatMap.listedAs, hroot]
    decide +kernel
  have hsections : ∃ sections, m.sections? = some sections := by
    rw [hshape]
    exact ⟨_, rfl⟩
  obtain ⟨sections, hsections⟩ := hsections
  obtain ⟨⟨answer, answers, a, ha, hanswer, hat, -, hall, hmem⟩, -⟩ :=
    mem_allGeneratedPositionsFor_of_answersAt (.ofRecord hm) hsections hlisted hanswers
  rw [hfull] at hall
  exact ⟨m, sections, f, hm, hsections, hlisted, hanswers, hfull, answer, answers, a, ha, hanswer,
    hat, hall, hmem⟩

/-- A name relative to the root of the section is answered for by the section, but not found in the
merged view. -/
theorem allGeneratedPositionsFor_relative_name :
    let part : Record :=
      { version := some 3, sourceRoot := some "/src", sources := some [some "/src/a.js"]
        mappings := some "AAAA" }
    let outer : Record :=
      { version := some 3, sections := some [{ offset := ⟨0, 0⟩, map := some part }] }
    ∃ m f, ofRecord outer = .ok m ∧
      m.mappings .generated =
        .ok [{ generated := ⟨1, 0⟩, original := some ⟨"/src/a.js", ⟨1, 0⟩⟩ }] ∧
      m.allGeneratedPositionsFor "a.js" 1 (some 0) = .ok [] ∧
      ∀ bias, AnswersAt "a.js" ⟨1, 0⟩ bias m f ∧ ∃ answer,
        m.generatedPositionFor "a.js" ⟨1, 0⟩ bias = .ok answer ∧ answer.IsAt ⟨1, 0⟩ := by
  intro part outer
  have hmerged : (ofRecord outer).bind (fun m => m.view.map fun v => (v.mappings .generated,
      v.allGeneratedPositionsFor "a.js" 1 (some 0))) =
        .ok ([{ generated := ⟨1, 0⟩, original := some ⟨"/src/a.js", ⟨1, 0⟩⟩ }], []) := by
    cbv
  have hview : (ofRecord part).bind (fun m => m.view.map fun v => (v.sourceSlot? "a.js",
      v.table.generated.toList)) =
        .ok (some 0, [{ generated := ⟨1, 0⟩, origin := some { place := ⟨0, ⟨1, 0⟩⟩ } }]) := by
    cbv
  obtain ⟨f, hf⟩ : ∃ f, ofRecord part = .ok (.flat f) := ⟨_, rfl⟩
  obtain ⟨m, hm, hshape⟩ : ∃ m, ofRecord outer = .ok m ∧
      m = ofSections none [{ offset := ⟨1, 0⟩, map := .flat f }] := by
    cases hf
    exact ⟨_, rfl, rfl⟩
  rw [hm] at hmerged
  rw [hf] at hview
  obtain ⟨w, hw, hparts⟩ := map_eq_ok_iff.mp hmerged
  obtain ⟨hmappings, hall⟩ := Prod.mk.inj hparts
  obtain ⟨v, hv, hparts'⟩ := map_eq_ok_iff.mp hview
  obtain ⟨hslot, hentries⟩ := Prod.mk.inj hparts'
  have hlisted : m.mappings .generated = _ := map_eq_ok_iff.mpr ⟨w, hw, hmappings⟩
  refine ⟨m, f, hm, hlisted, map_eq_ok_iff.mpr ⟨w, hw, hall⟩, fun bias => ?_⟩
  have hanswers : AnswersAt "a.js" ⟨1, 0⟩ bias m f := by
    rw [hshape]
    show AnswersAt "a.js" ⟨1, 0⟩ bias (.index none ([] ++ _ :: []) _) f
    exact .index (fun t ht => absurd ht List.not_mem_nil)
      (.flat hv hslot (by rw [hentries]; exact List.mem_singleton_self _) rfl)
  obtain ⟨answer, hanswer, a, ha, hat, -⟩ := hanswers.exists_listed (.ofRecord _ hm) hlisted
  rw [List.mem_singleton.mp ha] at hat
  exact ⟨hanswers, answer, hanswer, hat⟩

end LoadedMap

end SourceMap

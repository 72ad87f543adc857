import Mathlib
import SourceMap.Proofs.Alike
import SourceMap.Proofs.Rebuilding

/-!
# The map of a builder, and the map of its record

A builder can be asked for its map in two ways: at once, or by writing a record that is loaded. The
first keeps the mappings as they were added. The second leaves out repetitions and goes through
the `mappings` text. Where the sources of the builder are stored as they are, both maps answer all
queries alike (`toMap_agrees`).
-/

set_option autoImplicit false

namespace SourceMap

/-! ## Sources stored as they are -/

/-- Without an absolute source under an absolute root, names in normal form are stored as they
are. -/
theorem FlatMap.storedSource_of_normal {root : Option String} {s : String}
    (hnormal : Path.normalize s = s)
    (hroot : ∀ r, root = some r → ¬ (Path.isAbsolute r ∧ Path.isAbsolute s)) :
    storedSource root (some s) = s := by
  cases root with
  | none => simp [storedSource, hnormal]
  | some r =>
      have hrelative := hroot r rfl
      simp [storedSource, hnormal, hrelative]

/-! ## Answers that agree -/

namespace LoadedMap

/-- Whether two maps give the same answers to all queries about positions, apart from repetitions in
the answers that are lists. -/
structure Agree (m m' : LoadedMap) : Prop where
  original : ∀ p bias, ∃ answer,
    m.originalPositionFor p bias = .ok answer ∧ m'.originalPositionFor p bias = .ok answer
  generated : ∀ source p bias, ∃ answer,
    m.generatedPositionFor source p bias = .ok answer ∧
      m'.generatedPositionFor source p bias = .ok answer
  allGenerated : ∀ source line column, ∃ answers answers',
    m.allGeneratedPositionsFor source line column = .ok answers ∧
      m'.allGeneratedPositionsFor source line column = .ok answers' ∧
      answers.eraseReps = answers'.eraseReps
  mappings : ∀ order, ∃ listed listed',
    m.mappings order = .ok listed ∧ m'.mappings order = .ok listed' ∧
      listed.eraseReps = listed'.eraseReps

/-- Flat maps with alike views agree. -/
theorem Agree.of_alike {f f' : FlatMap} {v v' : View} (hf : f.view = .ok v)
    (hf' : f'.view = .ok v') (h : v.Alike v') (hv : v.table.InOrder) (hv' : v'.table.InOrder) :
    Agree (.flat f) (.flat f') where
  original p bias := by
    refine ⟨v.originalPositionFor p bias, ?_, ?_⟩
    · rw [originalPositionFor, hf, ok_map]
    · rw [originalPositionFor, hf', ok_map, h.originalPositionFor_eq hv hv']
  generated source p bias := by
    refine ⟨v.generatedPositionFor source p bias, generatedPositionFor_flat hf source p bias, ?_⟩
    rw [generatedPositionFor_flat hf', h.generatedPositionFor_eq]
  allGenerated source line column := by
    refine ⟨_, _, ?_, ?_, h.allGeneratedPositionsFor_eq source line column⟩
    · rw [allGeneratedPositionsFor, view, hf, ok_map]
    · rw [allGeneratedPositionsFor, view, hf', ok_map]
  mappings order :=
    ⟨_, _, mappings_flat hf order, mappings_flat hf' order, h.mappings_eq order⟩

end LoadedMap

/-! ## Two ways to one map -/

namespace Builder

/-- **A builder and its record describe the same map.** If the sources of a builder are in normal
form, and its root is not empty and not absolute together with a source, the record of the builder
is loaded as a map that agrees with the one the builder has at once. -/
theorem toMap_agrees {b : Builder} (hb : b.Reachable)
    (hsize : b.mappings.length < UInt32.size - 1)
    (hnormal : ∀ s ∈ b.sources.toList, Path.normalize s = s)
    (hroot : ∀ r, b.root = some r →
      r ≠ "" ∧ ∀ s ∈ b.sources.toList, ¬ (Path.isAbsolute r ∧ Path.isAbsolute s)) :
    ∃ m, LoadedMap.ofRecord b.toRecord = .ok m ∧ b.toMap.Agree m := by
  have hsound := hb.sound
  have hsources := hsound.size_sources_le
  have hnames := hsound.size_names_le
  obtain ⟨f, v, hf, -, hview, htable, hstored, hloaded, hvroot⟩ :=
    hsound.exists_loaded_view (by omega) (by omega)
  have hsame : v.root = b.root := by
    rw [hvroot]
    cases hr : b.root with
    | none => rfl
    | some r => simp [(hroot r hr).1]
  -- every source is stored as it is
  have hkept : v.sources.toList = b.sources.toList := by
    rw [hstored, hsame]
    refine (List.map_congr_left fun s hs => ?_).trans (List.map_id _)
    exact FlatMap.storedSource_of_normal (hnormal s hs) fun r hr => (hroot r hr).2 s hs
  have hentries (e : Entry) :
      e ∈ b.mappings.map b.entry ↔ e ∈ b.log.sorted.eraseReps.map b.entry := by
    simp only [List.mem_map, mem_eraseReps_sorted]
  have hspans : ∀ e ∈ b.mappings.map b.entry, e.lastColumn = none := by
    intro e he
    obtain ⟨m, -, rfl⟩ := List.mem_map.mp he
    rfl
  have htables := MappingTable.alike_ofList hentries hspans
  rw [← htable] at htables
  refine ⟨.flat f, hf, LoadedMap.Agree.of_alike rfl hview ?_ (MappingTable.inOrder_ofList _) ?_⟩
  · exact ⟨htables, hkept.symm, hloaded.symm, hsame.symm⟩
  · rw [htable]
    exact MappingTable.inOrder_ofList _

/-- A builder with a root that has its mappings out of order, and one of them twice. -/
theorem toMap_agrees_repeated :
    let m : Mapping :=
      { generated := ⟨1, 0⟩, original := some ⟨"a.js", ⟨1, 0⟩⟩, name := some "x" }
    let m' : Mapping := { generated := ⟨2, 7⟩, original := some ⟨"b.js", ⟨3, 0⟩⟩ }
    ∃ b : Builder, b.root = some "src" ∧ b.mappings = [m', m, m] ∧ b.log.inOrder = false ∧
      ∃ loaded, LoadedMap.ofRecord b.toRecord = .ok loaded ∧ b.toMap.Agree loaded := by
  intro m m'
  have h₁ := Reachable.addMapping m' (.new none (some "src")) (addMapping_eq_ok_iff.mpr ⟨rfl, rfl⟩)
  have h₂ := Reachable.addMapping m h₁ (addMapping_eq_ok_iff.mpr ⟨rfl, rfl⟩)
  have h₃ := Reachable.addMapping m h₂ (addMapping_eq_ok_iff.mpr ⟨rfl, rfl⟩)
  refine ⟨_, rfl, rfl, rfl, toMap_agrees h₃ (by decide) ?_ ?_⟩
  · decide +kernel
  · decide +kernel

end Builder

end SourceMap

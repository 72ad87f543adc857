import Mathlib
import SourceMap.Proofs.Rebuilding
import SourceMap.Proofs.SourceRoot

/-!
# Sources named again

A builder that starts from a map has its sources as they are seen from the root of the map, and
when its record is loaded they are stored and resolved like those of any other record. So each
source of the map is listed under the name `retrace` (`ofMap_retraces`), which need not be the name
it had. The name is the same for a source that stands for a name in normal form which can be
reversed (`Retraceable.retrace_eq`).
-/

set_option autoImplicit false

namespace SourceMap

/-! ## Names that stay -/

namespace SourceRoot

open SourceMap.Path

/-- A name that leads up by some steps and down from there is not absolute. -/
theorem isAbsolute_steps {name : String} {k : Nat} {rest : List Char} (hrest : Descends rest)
    (hname : name.toList = steps k ++ rest) : isAbsolute name = false := by
  obtain ⟨ts, hts, -, rfl⟩ := hrest.exists_components
  have hups := hts.steps k
  have hhead := hups.head?_ne
  rw [isAbsolute, isAbsoluteChars, hname, steps_append hts.ne_nil,
    ofChars?_joinComponents hups.separated]
  simpa using hhead

/-- A name in normal form that can be reversed is stored as it is. -/
theorem Reversible.storedSource_eq {root : Option String} {name : String}
    (h : Reversible root name) (hnormal : normalize name = name) :
    FlatMap.storedSource root (some name) = name := by
  cases h with
  | bare => simp [FlatMap.storedSource, hnormal]
  | way _ _ _ hrest hname _ =>
      have hrelative := isAbsolute_steps hrest hname
      simp [FlatMap.storedSource, hnormal, hrelative]
  | @apart root name _ hdirs =>
      have hrelative : relative root name = name := by
        rw [relative, relativeChars_of_forall hdirs, String.ofList_toList]
      simp [FlatMap.storedSource, hnormal, hrelative]

end SourceRoot

namespace Builder

/-- The name under which a source of a map is listed when the map has been built again. -/
def retrace (root : Option String) (source : String) : String :=
  fullName root (SourceRoot.relativize root source)

/-- Whether a source stands for a name in normal form that can be reversed. -/
def Retraceable (root : Option String) (source : String) : Prop :=
  ∃ name, SourceRoot.Reversible root name ∧ Path.normalize name = name ∧
    SourceRoot.resolve root name = source

/-- **What can be retraced keeps its name.** -/
theorem Retraceable.retrace_eq {root : Option String} {source : String}
    (h : Retraceable root source) : retrace root source = source := by
  obtain ⟨name, hreversible, hnormal, rfl⟩ := h
  rw [retrace, hreversible.relativize_resolve, fullName, hreversible.storedSource_eq hnormal]

/-! ## Tables that are small enough -/

/-- Distinct strings that have a number each are no more than the numbers. -/
theorem length_le_of_numbered {ss : List String} (hnodup : ss.Nodup) {n : Nat} (g : Nat → String)
    (h : ∀ s ∈ ss, ∃ i < n, g i = s) : ss.length ≤ n := by
  have hsubset : ss ⊆ (List.range n).map g := by
    intro s hs
    simpa using h s hs
  simpa using (hnodup.subperm hsubset).length_le

/-- The slots of a flat map that a record describes have numbers of 32 bits. -/
theorem fits_capped_of_ofRecord {r : Record} {f : FlatMap} (h : FlatMap.ofRecord r = .ok f)
    {v : View} (hv : f.view = .ok v) :
    ∀ e ∈ v.table.generated.toList, e.Fits v.sizes.capped := by
  have htable := (FlatMap.loads_of_ofRecord h).table
  obtain ⟨t, ht, rfl⟩ := map_eq_ok_iff.mp hv
  rw [htable] at ht
  exact fun e he => MappingTable.fits_capped_of_decode ht he

/-- A builder with the mappings of a flat map has no more sources than 32 bits can number. -/
theorem Sound.size_sources_le_of_flat {b : Builder} (hb : b.Sound) {r : Record} {f : FlatMap}
    (h : FlatMap.ofRecord r = .ok f) {v : View} (hv : f.view = .ok v)
    (hmappings : b.mappings = (v.mappings .generated).map (relativized f.root)) :
    b.sources.size ≤ UInt32.size := by
  rw [StringTable.size_eq]
  apply length_le_of_numbered hb.nodup_sources
    fun i => SourceRoot.relativize f.root (v.sourceAt i)
  intro s hs
  obtain ⟨m, hm, hsource⟩ := hb.mem_sources_iff.mp hs
  rw [hmappings, View.mappings, List.map_map] at hm
  obtain ⟨e, he, rfl⟩ := List.mem_map.mp hm
  have hfits := fits_capped_of_ofRecord h hv e he
  obtain ⟨generated, _ | ⟨place, name⟩, last⟩ := e
  · cases hsource
  · have hslot : place.source < min v.sources.size UInt32.size := hfits.source _ rfl
    exact ⟨place.source, by omega, Option.some.inj hsource⟩

/-- It has no more names than that either. -/
theorem Sound.size_names_le_of_flat {b : Builder} (hb : b.Sound) {r : Record} {f : FlatMap}
    (h : FlatMap.ofRecord r = .ok f) {v : View} (hv : f.view = .ok v)
    (hmappings : b.mappings = (v.mappings .generated).map (relativized f.root)) :
    b.names.size ≤ UInt32.size := by
  rw [StringTable.size_eq]
  apply length_le_of_numbered hb.nodup_names fun i => (v.names.get? i).getD ""
  intro s hs
  obtain ⟨m, hm, hname⟩ := hb.mem_names_iff.mp hs
  rw [hmappings, View.mappings, List.map_map] at hm
  obtain ⟨e, he, rfl⟩ := List.mem_map.mp hm
  have hfits := fits_capped_of_ofRecord h hv e he
  obtain ⟨generated, _ | ⟨place, _ | n⟩, last⟩ := e
  · cases hname
  · cases hname
  · have hslot : n < min v.names.size UInt32.size := hfits.name _ rfl n rfl
    have hget : v.names.get? n = some s := hname
    exact ⟨n, by omega, by rw [hget, Option.getD_some]⟩

/-! ## Maps built again -/

/-- Every flat map that a record describes and that can be listed can be built again and loaded, and
its mappings are then listed with their sources retraced. -/
theorem exists_retraced {r : Record} {f : FlatMap} (h : FlatMap.ofRecord r = .ok f)
    {listed : List Mapping} (hlisted : (LoadedMap.flat f).mappings .generated = .ok listed) :
    ∃ b f' listed', ofMap (.flat f) = .ok b ∧ LoadedMap.ofRecord b.toRecord = .ok (.flat f') ∧
      (LoadedMap.flat f').mappings .generated = .ok listed' ∧
      ∀ a, a ∈ listed' ↔ ∃ m ∈ listed, m.mapSource (retrace f.root) = a := by
  obtain ⟨b, hb, hmappings, -, hbroot⟩ := ofMap_eq_ok (.ofFlat h) hlisted
  have hsound : b.Sound := .ofMap hb
  obtain ⟨v, hv, hview⟩ := map_eq_ok_iff.mp hlisted
  have hspelled : b.mappings = (v.mappings .generated).map (relativized f.root) := by
    rw [hmappings, hview]
    rfl
  obtain ⟨f', listed', hf', -, hlisted', hmem⟩ :=
    hsound.exists_listed (hsound.size_sources_le_of_flat h hv hspelled)
      (hsound.size_names_le_of_flat h hv hspelled)
  have hroot : b.root.filter (!·.isEmpty) = f.root := by
    rw [hbroot, LoadedMap.root, (FlatMap.loads_of_ofRecord h).root, Option.filter_filter]
    simp
  refine ⟨b, f', listed', hb, hf', hlisted', fun a => ?_⟩
  rw [hmem, hmappings, hroot]
  simp only [List.mem_map, exists_exists_and_eq_and]
  refine exists_congr fun m => and_congr_right fun _ => ?_
  obtain ⟨generated, _ | o, name⟩ := m
  · rfl
  · rfl

/-- **How a map is listed after it was built again.** Every flat map that a record describes and
that can be listed can be built again and loaded. Its mappings are listed with their sources
retraced, and are the same mappings if all their sources can be retraced. This is about string
tables whose slots have numbers of 32 bits. -/
theorem ofMap_retraces {r : Record} {f : FlatMap} (h : FlatMap.ofRecord r = .ok f)
    {listed : List Mapping} (hlisted : (LoadedMap.flat f).mappings .generated = .ok listed) :
    ∃ b f' listed', ofMap (.flat f) = .ok b ∧ LoadedMap.ofRecord b.toRecord = .ok (.flat f') ∧
      (LoadedMap.flat f').mappings .generated = .ok listed' ∧
      (∀ a, a ∈ listed' ↔ ∃ m ∈ listed, m.mapSource (retrace f.root) = a) ∧
      ((∀ m ∈ listed, ∀ s, m.source? = some s → Retraceable f.root s) →
        ∀ a, a ∈ listed' ↔ a ∈ listed) := by
  obtain ⟨b, f', listed', hb, hf', hlisted', hretraced⟩ := exists_retraced h hlisted
  refine ⟨b, f', listed', hb, hf', hlisted', hretraced, fun hretraceable a => ?_⟩
  have hsame : ∀ m ∈ listed, m.mapSource (retrace f.root) = m := fun m hm =>
    Mapping.mapSource_of_eq fun s hs => (hretraceable m hm s hs).retrace_eq
  rw [hretraced]
  constructor
  · rintro ⟨m, hm, rfl⟩
    rwa [hsame m hm]
  · exact fun ha => ⟨a, ha, hsame a ha⟩

/-- A source below the root, and one that is only below the directory above it. -/
theorem ofMap_retraces_below :
    let r : Record :=
      { version := some 3, sourceRoot := some "lib/x"
        sources := some [some "a.js", some "../b.js"], names := some ["n"]
        mappings := some "AAAAA,CCAA" }
    let listed : List Mapping :=
      [{ generated := ⟨1, 0⟩, original := some ⟨"lib/x/a.js", ⟨1, 0⟩⟩, name := some "n" },
        { generated := ⟨1, 1⟩, original := some ⟨"lib/b.js", ⟨1, 0⟩⟩ }]
    ∃ f b f' listed', FlatMap.ofRecord r = .ok f ∧
      (LoadedMap.flat f).mappings .generated = .ok listed ∧ ofMap (.flat f) = .ok b ∧
      LoadedMap.ofRecord b.toRecord = .ok (.flat f') ∧
      (LoadedMap.flat f').mappings .generated = .ok listed' ∧ ∀ a, a ∈ listed' ↔ a ∈ listed := by
  intro r listed
  obtain ⟨f, hf, hloads⟩ := FlatMap.exists_loads (r := r) (by rintro contents ⟨⟩)
  have hroot : f.root = some "lib/x" := by simp [hloads.root, r]
  have hbelow : SourceRoot.resolve (some "lib/x") "a.js" = "lib/x/a.js" := by decide +kernel
  have habove : SourceRoot.resolve (some "lib/x") "../b.js" = "lib/b.js" := by decide +kernel
  have hlisted : (LoadedMap.flat f).mappings .generated = .ok listed := by
    have hdecode : (MappingTable.decode "AAAAA,CCAA" { sources := 2, names := 1 }).map
        (·.generated.toList) = .ok
          [{ generated := ⟨1, 0⟩, origin := some { place := ⟨0, ⟨1, 0⟩⟩, name := some 0 } },
            { generated := ⟨1, 1⟩, origin := some { place := ⟨1, ⟨1, 0⟩⟩ } }] := by
      cbv
    obtain ⟨v, hsources, hnames, hvroot, hlisted⟩ :=
      LoadedMap.exists_mappings_of_decode hloads hdecode
    have hstored : FlatMap.storedSource (some "lib/x") (some "a.js") = "a.js" := by
      decide +kernel
    have hstored' : FlatMap.storedSource (some "lib/x") (some "../b.js") = "../b.js" := by
      decide +kernel
    rw [hlisted]
    simp [r, listed, View.mapping, View.sourceAt, Entry.place?, Entry.name?, StringTable.get?_eq,
      hsources, hnames, hvroot, hroot, hstored, hstored', hbelow, habove]
  have htidy : Path.Tidy ['l', 'i', 'b', '/', 'x'] := by
    show Path.normalizePath _ = _ ∧ _
    decide
  have hretraceable : Retraceable (some "lib/x") "lib/x/a.js" := by
    have hdescends : Path.Descends ['a', '.', 'j', 's'] :=
      ⟨by decide, by decide, by decide, by decide⟩
    exact ⟨"a.js", .below htidy hdescends (by decide), by decide +kernel, hbelow⟩
  have hretraceable' : Retraceable (some "lib/x") "lib/b.js" := by
    have hdescends : Path.Descends ['b', '.', 'j', 's'] :=
      ⟨by decide, by decide, by decide, by decide⟩
    have hancestors : Path.ancestors ['l', 'i', 'b', '/', 'x'] =
        [['l', 'i', 'b', '/', 'x']] ++ ['l', 'i', 'b'] :: [] := by
      decide
    refine ⟨"../b.js", .way htidy hancestors ?_ hdescends rfl (by decide), by decide +kernel,
      habove⟩
    intro b hb
    rw [List.mem_singleton.mp hb]
    decide
  obtain ⟨b, f', listed', hb, hf', hlisted', -, hsame⟩ := ofMap_retraces hf hlisted
  refine ⟨f, b, f', listed', hf, hlisted, hb, hf', hlisted', hsame ?_⟩
  rw [hroot]
  simp [listed, Mapping.source?, hretraceable, hretraceable']

/-- Under a root that is not in normal form a source gets another name. -/
theorem ofMap_untidy_root :
    let r : Record :=
      { version := some 3, sourceRoot := some "./src", sources := some [some "a.js"]
        mappings := some "AAAA" }
    let listed : List Mapping :=
      [{ generated := ⟨1, 0⟩, original := some ⟨"src/a.js", ⟨1, 0⟩⟩ }]
    ∃ f b f' listed', LoadedMap.ofRecord r = .ok (.flat f) ∧
      (LoadedMap.flat f).mappings .generated = .ok listed ∧ ofMap (.flat f) = .ok b ∧
      LoadedMap.ofRecord b.toRecord = .ok (.flat f') ∧
      (LoadedMap.flat f').mappings .generated = .ok listed' ∧
      { generated := ⟨1, 0⟩, original := some ⟨"src/src/a.js", ⟨1, 0⟩⟩ } ∈ listed' ∧
      ¬ ∀ a, a ∈ listed' ↔ a ∈ listed := by
  intro r listed
  obtain ⟨f, hf, hloads⟩ := FlatMap.exists_loads (r := r) (by rintro contents ⟨⟩)
  have hroot : f.root = some "./src" := by simp [hloads.root, r]
  have hlisted : (LoadedMap.flat f).mappings .generated = .ok listed := by
    have hdecode : (MappingTable.decode "AAAA" { sources := 1, names := 0 }).map
        (·.generated.toList) =
          .ok [{ generated := ⟨1, 0⟩, origin := some { place := ⟨0, ⟨1, 0⟩⟩ } }] := by
      cbv
    obtain ⟨v, hsources, hnames, hvroot, hlisted⟩ :=
      LoadedMap.exists_mappings_of_decode hloads hdecode
    have hstored : FlatMap.storedSource (some "./src") (some "a.js") = "a.js" := by
      decide +kernel
    have hresolved : SourceRoot.resolve (some "./src") "a.js" = "src/a.js" := by
      decide +kernel
    rw [hlisted]
    simp [r, listed, View.mapping, View.sourceAt, Entry.place?, Entry.name?, StringTable.get?_eq,
      hsources, hvroot, hroot, hstored, hresolved]
  obtain ⟨b, f', listed', hb, hf', hlisted', hretraced⟩ := exists_retraced hf hlisted
  have hretrace : retrace (some "./src") "src/a.js" = "src/src/a.js" := by
    decide +kernel
  have hmem : { generated := ⟨1, 0⟩, original := some ⟨"src/src/a.js", ⟨1, 0⟩⟩ } ∈ listed' := by
    rw [hretraced, hroot]
    refine ⟨_, List.mem_singleton_self _, ?_⟩
    simp [Mapping.mapSource, hretrace]
  have hload : LoadedMap.ofRecord r = (FlatMap.ofRecord r).map .flat := rfl
  refine ⟨f, b, f', listed', by rw [hload, hf, ok_map], hlisted, hb, hf', hlisted', hmem, ?_⟩
  intro hsame
  have hmem' := (hsame _).mp hmem
  simp [listed] at hmem'

end Builder

end SourceMap

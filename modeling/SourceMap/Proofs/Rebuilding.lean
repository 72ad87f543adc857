import Mathlib
import SourceMap.Proofs.RoundTrip

/-!
# Maps built again

A builder that starts from a map takes over its mappings one by one. Nothing can go wrong on the way
but reading the map (`ofMap_eq_error_iff`): what a map lists has no fault, and asking for a content
that may be missing never fails. What the builder then writes is loaded as a flat map with the
sources and names of the builder (`ofRecord_toRecord`), which lists the same mappings again
(`ofMap_reloads`).
-/

set_option autoImplicit false

namespace SourceMap

/-! ## Contents -/

namespace LoadedMap

/-- What holds of a flat map, and of an index map if it holds of the maps of its sections, holds of
every loaded map. -/
theorem induction {p : LoadedMap → Prop} (hflat : ∀ f, p (.flat f))
    (hindex : ∀ file sections merged, (∀ s ∈ sections, p s.map) → p (.index file sections merged)) :
    ∀ m, p m
  | .flat f => hflat f
  | .index file sections merged => hindex file sections merged fun s hs =>
      have : sizeOf s.map < 1 + sizeOf file + sizeOf sections + sizeOf merged := by
        have hs' := List.sizeOf_lt_of_mem hs
        obtain ⟨offset, map⟩ := s
        simp only [Placed.mk.sizeOf_spec] at hs'
        show sizeOf map < _
        omega
      induction hflat hindex s.map

/-- A content that may be missing can always be asked for. -/
theorem exists_contentFor (m : LoadedMap) (source : String) :
    ∃ content, m.contentFor source true = .ok content := by
  induction m using LoadedMap.induction with
  | hflat f =>
      rw [contentFor, FlatMap.contentFor]
      cases f.contents with
      | none => exact ⟨_, rfl⟩
      | some contents =>
          dsimp only
          split
          · exact ⟨_, rfl⟩
          · exact ⟨_, rfl⟩
  | hindex file sections merged ih =>
      have hfirst : ∃ content, firstContent source sections = .ok content := by
        induction sections with
        | nil => exact ⟨none, rfl⟩
        | cons s sections ihs =>
            obtain ⟨offset, m⟩ := s
            obtain ⟨content, hcontent⟩ := ih _ List.mem_cons_self
            obtain ⟨rest, hrest⟩ := ihs fun t ht => ih t (List.mem_cons_of_mem _ ht)
            rw [firstContent, hcontent]
            cases content with
            | none => exact ⟨rest, hrest⟩
            | some text => exact ⟨some text, rfl⟩
      obtain ⟨content, hcontent⟩ := hfirst
      rw [contentFor, hcontent]
      cases content with
      | none => exact ⟨none, rfl⟩
      | some text => exact ⟨some text, rfl⟩

end LoadedMap

namespace Builder

/-- Contents can be copied from any map. -/
theorem exists_copyContents (m : LoadedMap) (rename : String → String) (sources : List String) :
    ∀ b : Builder, ∃ b', b.copyContents m rename sources = .ok b' := by
  induction sources with
  | nil => exact fun b => ⟨b, rfl⟩
  | cons source sources ih =>
      intro b
      obtain ⟨content, hcontent⟩ := m.exists_contentFor source
      rw [copyContents, hcontent]
      cases content with
      | none => exact ih b
      | some text => exact ih _

/-! ## Mappings taken over -/

/-- Seen from a root, a mapping has the same fault. -/
theorem fault?_relativized (root : Option String) (a : Mapping) :
    (relativized root a).fault? = a.fault? := by
  obtain ⟨generated, _ | o, name⟩ := a <;> rfl

theorem relativized_none (a : Mapping) : relativized none a = a := by
  obtain ⟨generated, _ | o, name⟩ := a <;> rfl

/-- Mappings without fault can be added one after the other. -/
theorem foldlM_addMapping {f : Mapping → Mapping} {ms : List Mapping}
    (h : ∀ a ∈ ms, (f a).fault? = none) : ∀ b : Builder, ∃ b',
      ms.foldlM (fun b a => b.addMapping (f a)) b = .ok b' ∧
      b'.mappings = b.mappings ++ ms.map f ∧ b'.file = b.file ∧ b'.root = b.root := by
  induction ms with
  | nil => exact fun b => ⟨b, rfl, (List.append_nil _).symm, rfl, rfl⟩
  | cons a ms ih =>
      intro b
      obtain ⟨b₁, hadd⟩ : ∃ b₁, b.addMapping (f a) = .ok b₁ :=
        ⟨_, addMapping_eq_ok_iff.mpr ⟨h a List.mem_cons_self, rfl⟩⟩
      obtain ⟨b', hb', hmappings, hfile, hroot⟩ :=
        ih (fun c hc => h c (List.mem_cons_of_mem a hc)) b₁
      obtain ⟨-, rfl⟩ := addMapping_eq_ok_iff.mp hadd
      refine ⟨b', ?_, ?_, hfile, hroot⟩
      · rw [List.foldlM_cons, hadd]
        exact hb'
      · rw [hmappings, Builder.mappings, mappings_add, List.append_assoc]
        rfl

/-- **A builder can start from every map that can be read**, and has its mappings as they are seen
from the root of the map. -/
theorem ofMap_eq_ok {m : LoadedMap} (hm : m.Sound) {listed : List Mapping}
    (hlisted : m.mappings .generated = .ok listed) : ∃ b, ofMap m = .ok b ∧
      b.mappings = listed.map (relativized m.root) ∧ b.file = m.file ∧ b.root = m.root := by
  have hfaultless : ∀ a ∈ listed, (relativized m.root a).fault? = none := by
    intro a ha
    rw [fault?_relativized]
    exact hm.fault?_eq_none hlisted a ha
  obtain ⟨b₁, hadd, hmappings, hfile, hroot⟩ :=
    foldlM_addMapping hfaultless { file := m.file, root := m.root }
  obtain ⟨b, hcopy⟩ := exists_copyContents m id m.sourceNames b₁
  refine ⟨b, ?_, ?_⟩
  · rw [ofMap, hlisted, ok_bind, hadd, ok_bind, hcopy]
  · obtain ⟨contents, rfl⟩ := sameMappings_copyContents hcopy
    exact ⟨hmappings, hfile, hroot⟩

/-- A builder cannot start from a map that cannot be read, and gives the error of the map. -/
theorem ofMap_eq_error_iff {m : LoadedMap} (hm : m.Sound) {e : Error} :
    ofMap m = .error e ↔ m.mappings .generated = .error e := by
  cases hlisted : m.mappings .generated with
  | error e' =>
      rw [ofMap, hlisted, error_bind, Except.error.injEq, Except.error.injEq]
  | ok listed =>
      obtain ⟨b, hb, -⟩ := ofMap_eq_ok hm hlisted
      rw [hb]
      simp

end Builder

/-! ## Tables made again -/

namespace StringTable

/-- No more slots are taken than there are strings to register. -/
theorem size_foldl_register_le (os : List (Option String)) : ∀ t : StringTable,
    (os.foldl register t).size ≤ t.size + os.length := by
  induction os with
  | nil => exact fun t => Nat.le_refl _
  | cons o os ih =>
      intro t
      have hstep : (t.register o).size ≤ t.size + 1 := by
        cases o with
        | none => exact Nat.le_succ _
        | some s =>
            show (t.insert s).size ≤ _
            rw [size_eq, size_eq, insert, toList_add]
            split <;> simp
      have hrest := ih (t.register o)
      rw [List.foldl_cons, List.length_cons]
      omega

end StringTable

namespace Builder

/-- A builder has no more sources than mappings. -/
theorem Sound.size_sources_le {b : Builder} (h : b.Sound) : b.sources.size ≤ b.mappings.length := by
  have hle := StringTable.size_foldl_register_le (b.mappings.map Mapping.source?) .empty
  rw [← h.sources_eq, List.length_map] at hle
  simpa [StringTable.size, StringTable.empty] using hle

/-- A builder has no more names than mappings. -/
theorem Sound.size_names_le {b : Builder} (h : b.Sound) : b.names.size ≤ b.mappings.length := by
  have hle := StringTable.size_foldl_register_le (b.mappings.map Mapping.name) .empty
  rw [← h.names_eq, List.length_map] at hle
  simpa [StringTable.size, StringTable.empty] using hle

/-! ## Records loaded again -/

/-- **What a builder writes can be loaded.** The map that is loaded has the sources of the builder
as they are stored under its root, and its names, and reads the text that the builder wrote. -/
theorem ofRecord_toRecord (b : Builder) : ∃ f : FlatMap,
    LoadedMap.ofRecord b.toRecord = .ok (.flat f) ∧ f.file = b.file ∧
    f.root = b.root.filter (!·.isEmpty) ∧
    f.sources.toList = b.sources.toList.map (fun s => FlatMap.storedSource f.root (some s)) ∧
    f.names.toList = b.names.toList ∧
    f.table = MappingTable.decode b.writeMappings b.sizes := by
  have haligned : FlatMap.Aligned b.toRecord := by
    intro contents hcontents
    have hmap : b.contents.map (fun _ => b.sourcesContent) = some contents := hcontents
    obtain ⟨-, -, rfl⟩ := Option.map_eq_some_iff.mp hmap
    show b.sourcesContent.length = (b.sources.toList.map some).length
    rw [sourcesContent, List.length_map, List.length_map]
  obtain ⟨f, hf, hloads⟩ := FlatMap.exists_loads haligned
  have hsources : f.sources.toList =
      b.sources.toList.map fun s => FlatMap.storedSource f.root (some s) := by
    rw [hloads.sources]
    exact List.map_map
  refine ⟨f, ?_, hloads.file, hloads.root, hsources, hloads.names, ?_⟩
  · have hload : LoadedMap.ofRecord b.toRecord = (FlatMap.ofRecord b.toRecord).map .flat := rfl
    rw [hload, hf, ok_map]
  · rw [hloads.table, StringTable.size_eq, StringTable.size_eq, hsources, List.length_map,
      hloads.names]
    rfl

/-- What a builder writes is loaded with a view of its mappings, each run of equal ones once. -/
theorem Sound.exists_loaded_view {b : Builder} (h : b.Sound)
    (hsources : b.sources.size ≤ UInt32.size) (hnames : b.names.size ≤ UInt32.size) :
    ∃ f : FlatMap, ∃ v : View, LoadedMap.ofRecord b.toRecord = .ok (.flat f) ∧ f.file = b.file ∧
      f.view = .ok v ∧ v.table = .ofList (b.log.sorted.eraseReps.map b.entry) ∧
      v.sources.toList = b.sources.toList.map (fun s => FlatMap.storedSource v.root (some s)) ∧
      v.names.toList = b.names.toList ∧ v.root = b.root.filter (!·.isEmpty) := by
  obtain ⟨f, hf, hfile, hroot, hstored, hloaded, htable⟩ := b.ofRecord_toRecord
  have hdecode := h.decodeAll_writeMappings hsources hnames
  refine ⟨f, { table := .ofList (b.log.sorted.eraseReps.map b.entry)
               sources := f.sources, names := f.names, root := f.root }, hf, hfile, ?_, rfl,
    hstored, hloaded, hroot⟩
  rw [FlatMap.view, htable, MappingTable.decode, hdecode]
  rfl

/-! ## The same mappings again -/

/-- The name under which a source of a builder is listed when its record is loaded. -/
def fullName (root : Option String) (source : String) : String :=
  SourceRoot.resolve root (FlatMap.storedSource root (some source))

/-- In a view with the sources of a builder as they are stored under a root, and with its names, the
entry of a mapping stands for the mapping, its source by its full name. -/
theorem Sound.mapping_loaded {b : Builder} (h : b.Sound) {v : View}
    (hstored : v.sources.toList =
      b.sources.toList.map fun s => FlatMap.storedSource v.root (some s))
    (hloaded : v.names.toList = b.names.toList) {m : Mapping} (hm : m ∈ b.mappings) :
    v.mapping (b.entry m) = m.mapSource (fullName v.root) := by
  have hfits : (b.entry m).Fits (b.viewOf v.table).sizes := fits_entry (h.faultless m hm)
  rw [View.mapping_of_map hfits rfl hstored hloaded, h.mapping_entry hm]
  rfl

/-- **What a builder writes is loaded as its mappings**, their sources by their full names. -/
theorem Sound.exists_listed {b : Builder} (h : b.Sound) (hsources : b.sources.size ≤ UInt32.size)
    (hnames : b.names.size ≤ UInt32.size) : ∃ f : FlatMap, ∃ listed,
      LoadedMap.ofRecord b.toRecord = .ok (.flat f) ∧ f.file = b.file ∧
      (LoadedMap.flat f).mappings .generated = .ok listed ∧
      ∀ a, a ∈ listed ↔
        ∃ m ∈ b.mappings, m.mapSource (fullName (b.root.filter (!·.isEmpty))) = a := by
  obtain ⟨f, v, hf, hfile, hview, htable, hstored, hloaded, hroot⟩ :=
    h.exists_loaded_view hsources hnames
  refine ⟨f, v.mappings .generated, hf, hfile, LoadedMap.mappings_flat hview _, ?_⟩
  have hmapping : ∀ m ∈ b.mappings, v.mapping (b.entry m) = m.mapSource (fullName v.root) :=
    fun m hm => h.mapping_loaded hstored hloaded hm
  intro a
  show a ∈ v.table.generated.toList.map v.mapping ↔ _
  rw [htable, ← hroot]
  show a ∈ (Entry.sortGenerated (b.log.sorted.eraseReps.map b.entry)).map v.mapping ↔ _
  rw [((Entry.perm_sortGenerated _).map v.mapping).mem_iff, List.map_map, List.mem_map]
  constructor
  · rintro ⟨m, hm, rfl⟩
    have hmem := mem_eraseReps_sorted.mp hm
    exact ⟨m, hmem, (hmapping m hmem).symm⟩
  · rintro ⟨m, hm, rfl⟩
    exact ⟨m, mem_eraseReps_sorted.mpr hm, hmapping m hm⟩

/-- A builder without root whose sources are in normal form is loaded as a map of its mappings. -/
theorem Sound.exists_reloaded {b : Builder} (h : b.Sound) (hroot : b.root = none)
    (hnormal : ∀ s ∈ b.sources.toList, Path.normalize s = s)
    (hsize : b.mappings.length < UInt32.size) : ∃ f : FlatMap, ∃ listed,
      LoadedMap.ofRecord b.toRecord = .ok (.flat f) ∧ f.file = b.file ∧
      (LoadedMap.flat f).mappings .generated = .ok listed ∧ ∀ a, a ∈ listed ↔ a ∈ b.mappings := by
  have hsources := h.size_sources_le
  have hnames := h.size_names_le
  obtain ⟨f, listed, hf, hfile, hlisted, hmem⟩ := h.exists_listed (by omega) (by omega)
  -- without a root, names in normal form are stored as they are
  have hsame : ∀ m ∈ b.mappings, m.mapSource (fullName (b.root.filter (!·.isEmpty))) = m := by
    intro m hm
    refine Mapping.mapSource_of_eq fun s hs => ?_
    rw [hroot]
    exact hnormal s (h.mem_sources_iff.mpr ⟨m, hm, hs⟩)
  refine ⟨f, listed, hf, hfile, hlisted, fun a => (hmem a).trans ?_⟩
  constructor
  · rintro ⟨m, hm, rfl⟩
    rwa [hsame m hm]
  · exact fun ha => ⟨a, ha, hsame a ha⟩

/-- **A map survives being built again.** A builder can start from a map just when the mappings of
the map can be read, and otherwise gives the error of the map. If the map has no source root, the
builder has just the mappings that the map lists, in their order. If moreover their sources are in
normal form, the record of the builder describes a flat map with the same file and the same
mappings. -/
theorem ofMap_reloads {m : LoadedMap} (hm : m.Reachable) :
    (∀ e, ofMap m = .error e ↔ m.mappings .generated = .error e) ∧
    ∀ b, ofMap m = .ok b → m.root = none → ∃ listed,
      m.mappings .generated = .ok listed ∧ b.mappings = listed ∧
      (listed.length < UInt32.size - 1 →
        (∀ a ∈ listed, ∀ s, a.source? = some s → Path.normalize s = s) →
        ∃ f : FlatMap, ∃ listed', LoadedMap.ofRecord b.toRecord = .ok (.flat f) ∧
          f.file = m.file ∧ (LoadedMap.flat f).mappings .generated = .ok listed' ∧
          ∀ a, a ∈ listed' ↔ a ∈ listed) := by
  refine ⟨fun e => ofMap_eq_error_iff hm.sound, ?_⟩
  intro b hb hroot
  have hsound : b.Sound := .ofMap hb
  cases hlisted : m.mappings .generated with
  | error e =>
      rw [(ofMap_eq_error_iff hm.sound).mpr hlisted] at hb
      cases hb
  | ok listed =>
      obtain ⟨b', hb', hmappings, hfile, hbroot⟩ := ofMap_eq_ok hm.sound hlisted
      rw [hb] at hb'
      cases hb'
      have hsame : b.mappings = listed := by
        rw [hmappings, hroot, funext relativized_none]
        exact List.map_id listed
      refine ⟨listed, rfl, hsame, ?_⟩
      intro hsize hnormal
      rw [← hfile, ← hsame]
      apply hsound.exists_reloaded (hbroot.trans hroot)
      · intro s hs
        obtain ⟨a, ha, hsource⟩ := hsound.mem_sources_iff.mp hs
        exact hnormal a (by rwa [← hsame]) s hsource
      · rw [hsame]
        omega

/-- An index map whose sections share a source comes back as one flat map. -/
theorem ofMap_reloads_sections :
    let flat : Record :=
      { version := some 3, sources := some [some "a.js"], mappings := some "AAAA,C" }
    let outer : Record :=
      { version := some 3
        sections := some
          [{ offset := ⟨0, 5⟩, map := some flat }, { offset := ⟨4, 0⟩, map := some flat }] }
    let listed : List Mapping :=
      [{ generated := ⟨1, 5⟩, original := some ⟨"a.js", ⟨1, 0⟩⟩ }, { generated := ⟨1, 6⟩ },
        { generated := ⟨5, 0⟩, original := some ⟨"a.js", ⟨1, 0⟩⟩ }, { generated := ⟨5, 1⟩ }]
    ∃ m b, LoadedMap.ofRecord outer = .ok m ∧ ofMap m = .ok b ∧ b.mappings = listed ∧
      ∃ f : FlatMap, ∃ listed', LoadedMap.ofRecord b.toRecord = .ok (.flat f) ∧
        (LoadedMap.flat f).mappings .generated = .ok listed' ∧ ∀ a, a ∈ listed' ↔ a ∈ listed := by
  intro flat outer listed
  obtain ⟨m, hm⟩ : ∃ m, LoadedMap.ofRecord outer = .ok m := ⟨_, rfl⟩
  have hroot : m.root = none := by cases hm; rfl
  have hlisted : (LoadedMap.ofRecord outer).bind (fun m => m.mappings .generated) = .ok listed := by
    cbv
  rw [hm] at hlisted
  have hlisted' : m.mappings .generated = .ok listed := hlisted
  obtain ⟨herror, hok⟩ := ofMap_reloads (.ofRecord hm)
  cases hb : ofMap m with
  | error e =>
      rw [(herror e).mp hb] at hlisted'
      cases hlisted'
  | ok b =>
      obtain ⟨listed₁, hlisted₁, hmappings, hreload⟩ := hok b hb hroot
      rw [hlisted'] at hlisted₁
      cases hlisted₁
      have hnormal : ∀ a ∈ listed, ∀ s, a.source? = some s → Path.normalize s = s := by
        have hsource : Path.normalize "a.js" = "a.js" := by decide +kernel
        simp [listed, Mapping.source?, hsource]
      obtain ⟨f, listed', hf, -, hflisted, hmem⟩ := hreload (by decide) hnormal
      exact ⟨m, b, hm, hb, hmappings, f, listed', hf, hflisted, hmem⟩

end Builder

end SourceMap

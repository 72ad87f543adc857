import Mathlib
import SourceMap.Builder
import SourceMap.Proofs.LoadedMap

/-!
# Sound builders

A builder is sound when its mappings have no fault, its string tables hold the sources and names of
its mappings in the order of their first occurrence, and its log knows whether the mappings are in
order. Every operation keeps a builder sound: adding a mapping (`Sound.addMapping`), setting and
copying contents, which changes nothing of this (`SameMappings`), starting from a map
(`Sound.ofMap`), and being taken through one (`Sound.applyMap`), which moves the mappings one by
one (`applyMap_cases`) and changes none of their generated positions.
-/

set_option autoImplicit false

namespace SourceMap

/-! ## Logs -/

namespace MappingLog

open Mapping (InOrder)

/-- A mapping that is not before the last one is before none of them. -/
theorem inOrder_concat {ms : List Mapping} {m : Mapping} :
    InOrder (ms ++ [m]) ↔ InOrder ms ∧
      ∀ a, ms.getLast? = some a → (compare a.generated m.generated).isLE = true := by
  rw [InOrder, List.pairwise_append]
  constructor
  · rintro ⟨hms, -, hlast⟩
    exact ⟨hms, fun a ha => hlast a (List.mem_of_getLast? ha) m List.mem_cons_self⟩
  · rintro ⟨hms, hlast⟩
    refine ⟨hms, List.pairwise_singleton _ _, ?_⟩
    rintro a ha b hb
    rw [List.mem_singleton.mp hb]
    -- what is not after the last mapping is after none, so comparing with the last is enough
    rcases List.eq_nil_or_concat ms with rfl | ⟨front, last, rfl⟩
    · cases ha
    · rw [List.concat_eq_append] at ha hms hlast
      have hle := hlast last List.getLast?_concat
      rcases List.mem_append.mp ha with ha | ha
      · exact Std.TransCmp.isLE_trans
          ((List.pairwise_append.mp hms).2.2 a ha last List.mem_cons_self) hle
      · rw [List.mem_singleton.mp ha]
        exact hle

/-- Whether a log knows if its mappings are in order. -/
def Honest (l : MappingLog) : Prop :=
  l.inOrder = true ↔ InOrder l.mappings.toList

theorem Honest.add {l : MappingLog} (h : l.Honest) (m : Mapping) : (l.add m).Honest := by
  show (l.inOrder && l.follows m) = true ↔ InOrder (l.mappings.push m).toList
  rw [Array.toList_push, inOrder_concat, Bool.and_eq_true, follows, ← Array.getLast?_toList]
  refine and_congr h ?_
  cases l.mappings.toList.getLast? with
  | none => simp
  | some last => simp

/-- A log stays honest when its mappings are replaced by others at the same positions. -/
theorem Honest.replace {l : MappingLog} (h : l.Honest) {ms : List Mapping}
    (hms : ms.map Mapping.generated = l.mappings.toList.map Mapping.generated) :
    (l.replace ms).Honest := by
  refine h.trans ?_
  show InOrder _ ↔ InOrder ms
  rw [Mapping.inOrder_iff, Mapping.inOrder_iff, hms]

/-- The mappings of an honest log, once sorted, are in order. -/
theorem Honest.inOrder_sorted {l : MappingLog} (h : l.Honest) : InOrder l.sorted := by
  unfold sorted
  split
  · rename_i hin
    exact h.mp hin
  · exact Mapping.inOrder_sort _

/-- Sorting a log keeps its mappings. -/
theorem perm_sorted (l : MappingLog) : l.sorted.Perm l.mappings.toList := by
  unfold sorted
  split
  · exact List.Perm.refl _
  · exact Mapping.perm_sort _

end MappingLog

/-! ## Soundness -/

namespace Builder

/-- What holds of a builder, however it was made. -/
structure Sound (b : Builder) : Prop where
  faultless : ∀ m ∈ b.mappings, m.fault? = none
  sources : b.sources = b.mappings.foldl registerSource .empty
  names : b.names = b.mappings.foldl registerName .empty
  log : b.log.Honest

theorem sound_new (file root : Option String) : Sound { file, root } := by
  refine ⟨fun m hm => (List.not_mem_nil hm).elim, rfl, rfl, ?_⟩
  exact ⟨fun _ => List.Pairwise.nil, fun _ => rfl⟩

theorem registerSource_eq (sources : StringTable) (m : Mapping) :
    registerSource sources m = sources.register m.source? := by
  unfold registerSource
  cases m.source? <;> rfl

theorem registerName_eq (names : StringTable) (m : Mapping) :
    registerName names m = names.register m.name := by
  unfold registerName
  cases m.name <;> rfl

theorem Sound.sources_eq {b : Builder} (h : b.Sound) :
    b.sources = (b.mappings.map Mapping.source?).foldl StringTable.register .empty := by
  have hregister : registerSource = fun t m => t.register (Mapping.source? m) := by
    funext t m
    exact registerSource_eq t m
  rw [h.sources, hregister, List.foldl_map]

theorem Sound.names_eq {b : Builder} (h : b.Sound) :
    b.names = (b.mappings.map Mapping.name).foldl StringTable.register .empty := by
  have hregister : registerName = fun t m => t.register (Mapping.name m) := by
    funext t m
    exact registerName_eq t m
  rw [h.names, hregister, List.foldl_map]

/-- The sources of a builder are those of its mappings. -/
theorem Sound.mem_sources_iff {b : Builder} (h : b.Sound) {s : String} :
    s ∈ b.sources.toList ↔ ∃ m ∈ b.mappings, m.source? = some s := by
  have hempty : s ∉ StringTable.empty.toList := List.not_mem_nil
  rw [h.sources_eq, StringTable.mem_register, List.mem_map]
  simp [hempty]

/-- The names of a builder are those of its mappings. -/
theorem Sound.mem_names_iff {b : Builder} (h : b.Sound) {s : String} :
    s ∈ b.names.toList ↔ ∃ m ∈ b.mappings, m.name = some s := by
  have hempty : s ∉ StringTable.empty.toList := List.not_mem_nil
  rw [h.names_eq, StringTable.mem_register, List.mem_map]
  simp [hempty]

/-- No source of a builder has two slots. -/
theorem Sound.nodup_sources {b : Builder} (h : b.Sound) : b.sources.toList.Nodup := by
  rw [h.sources_eq]
  exact StringTable.nodup_register List.nodup_nil

/-- No name of a builder has two slots. -/
theorem Sound.nodup_names {b : Builder} (h : b.Sound) : b.names.toList.Nodup := by
  rw [h.names_eq]
  exact StringTable.nodup_register List.nodup_nil

/-- The source of a mapping resolves to a slot. -/
theorem Sound.exists_source {b : Builder} (h : b.Sound) {m : Mapping} (hm : m ∈ b.mappings)
    {o : OriginalLocation} (ho : m.original = some o) :
    ∃ i, b.sources.indexOf? o.source = some i := by
  refine StringTable.exists_indexOf? (h.mem_sources_iff.mpr ⟨m, hm, ?_⟩)
  rw [Mapping.source?, ho]
  rfl

/-- The name of a mapping resolves to a slot. -/
theorem Sound.exists_name {b : Builder} (h : b.Sound) {m : Mapping} (hm : m ∈ b.mappings)
    {name : String} (hname : m.name = some name) : ∃ i, b.names.indexOf? name = some i :=
  StringTable.exists_indexOf? (h.mem_names_iff.mpr ⟨m, hm, hname⟩)

/-! ## Adding mappings -/

/-- A mapping without fault is added at the end, and no other is added. -/
theorem addMapping_eq_ok_iff {b b' : Builder} {m : Mapping} :
    b.addMapping m = .ok b' ↔ m.fault? = none ∧
      b' = { b with
        sources := registerSource b.sources m
        names := registerName b.names m
        log := b.log.add m } := by
  unfold addMapping
  cases m.fault? with
  | none => simp [eq_comm]
  | some fault => simp

theorem mappings_add (l : MappingLog) (m : Mapping) :
    (l.add m).mappings.toList = l.mappings.toList ++ [m] :=
  Array.toList_push

/-- **Adding a mapping keeps a builder sound.** -/
theorem Sound.addMapping {b b' : Builder} {m : Mapping} (h : b.Sound)
    (hadd : b.addMapping m = .ok b') : b'.Sound := by
  obtain ⟨hfault, rfl⟩ := addMapping_eq_ok_iff.mp hadd
  have hmappings := mappings_add b.log m
  refine ⟨?_, ?_, ?_, h.log.add m⟩
  · intro a ha
    rw [Builder.mappings, hmappings] at ha
    rcases List.mem_append.mp ha with ha | ha
    · exact h.faultless a ha
    · rw [List.mem_singleton.mp ha]
      exact hfault
  · show registerSource b.sources m = _
    rw [Builder.mappings, hmappings, List.foldl_concat, h.sources]
    rfl
  · show registerName b.names m = _
    rw [Builder.mappings, hmappings, List.foldl_concat, h.names]
    rfl

/-! ## Contents -/

/-- Whether two builders differ at most in their contents. -/
def SameMappings (b b' : Builder) : Prop :=
  ∃ contents, b' = { b with contents }

theorem SameMappings.trans {b₁ b₂ b₃ : Builder} (h : SameMappings b₁ b₂)
    (h' : SameMappings b₂ b₃) : SameMappings b₁ b₃ := by
  obtain ⟨_, rfl⟩ := h
  obtain ⟨contents, rfl⟩ := h'
  exact ⟨contents, rfl⟩

theorem sameMappings_setContent (b : Builder) (source : String) (content : Option String) :
    SameMappings b (b.setContent source content) := by
  cases content with
  | none => exact ⟨_, rfl⟩
  | some text => exact ⟨_, rfl⟩

theorem sameMappings_copyContents {m : LoadedMap} {rename : String → String}
    {sources : List String} : ∀ {b b' : Builder},
      b.copyContents m rename sources = .ok b' → SameMappings b b' := by
  induction sources with
  | nil =>
      intro b b' h
      cases h
      exact ⟨b.contents, rfl⟩
  | cons source sources ih =>
      intro b b' h
      rw [copyContents] at h
      split at h
      · cases h
      · exact ih h
      · exact (sameMappings_setContent b _ _).trans (ih h)

theorem SameMappings.sound {b b' : Builder} (h : SameMappings b b') (hb : b.Sound) : b'.Sound := by
  obtain ⟨contents, rfl⟩ := h
  exact ⟨hb.faultless, hb.sources, hb.names, hb.log⟩

/-- **A builder that starts from a map is sound.** -/
theorem Sound.ofMap {m : LoadedMap} {b : Builder} (h : Builder.ofMap m = .ok b) : b.Sound := by
  obtain ⟨ms, -, hrest⟩ := bind_eq_ok_iff.mp h
  obtain ⟨b₁, hadd, hcopy⟩ := bind_eq_ok_iff.mp hrest
  refine (sameMappings_copyContents hcopy).sound ?_
  exact foldlM_invariant Sound.addMapping (sound_new m.file m.root) hadd

/-! ## Chaining -/

/-- Whether a map moves a mapping into one of its files to `a'`. -/
def Moves (m : LoadedMap) (file : String) (rename : String → String) (a a' : Mapping) : Prop :=
  ∃ found, lookUp m file a = .ok found ∧ a' = move rename a found

/-- A mapping is moved only to a place that the map has for it. -/
theorem lookUp_eq_some {m : LoadedMap} {file : String} {a : Mapping} {answer : OriginalPosition}
    (h : lookUp m file a = .ok (some answer)) :
    ∃ o, a.original = some o ∧ o.source = file ∧ answer.isEmpty = false ∧
      m.originalPositionFor o.position .greatestLowerBound = .ok answer := by
  unfold lookUp at h
  split at h
  · cases h
  · rename_i o ho
    split at h
    · rename_i hsource
      obtain ⟨p, hp, hanswer⟩ := map_eq_ok_iff.mp h
      split at hanswer
      · cases hanswer
      · rename_i hempty
        cases hanswer
        exact ⟨o, ho, hsource, by simpa using hempty, hp⟩
    · cases h

/-- A mapping is moved to a whole place, and keeps its name if none was found. -/
theorem move_eq {m : LoadedMap} (hm : m.Sound) {file : String} {a : Mapping}
    {answer : OriginalPosition} (h : lookUp m file a = .ok (some answer))
    (rename : String → String) :
    ∃ source line column, line ≠ 0 ∧ answer =
        { source := some source, line := some line, column := some column, name := answer.name } ∧
      move rename a (some answer) =
        { generated := a.generated
          original := some { source := rename source, position := { line, column } }
          name := answer.name.or a.name } := by
  obtain ⟨o, ho, -, hempty, hanswer⟩ := lookUp_eq_some h
  obtain ⟨source, line, column, hline, heq⟩ := (hm.complete _ hanswer).of_not_isEmpty hempty
  refine ⟨source, line, column, hline, heq, ?_⟩
  rw [heq]
  simp only [move, ho]

/-- A mapping that is moved stays where it is in the generated file. -/
theorem Moves.generated {m : LoadedMap} {file : String} {rename : String → String}
    {a a' : Mapping} (h : Moves m file rename a a') : a'.generated = a.generated := by
  obtain ⟨_ | answer, -, rfl⟩ := h
  · rfl
  · rfl

/-- A mapping that is moved by a sound map has no fault. -/
theorem Moves.fault?_eq_none {m : LoadedMap} (hm : m.Sound) {file : String}
    {rename : String → String} {a a' : Mapping} (h : Moves m file rename a a')
    (ha : a.fault? = none) : a'.fault? = none := by
  obtain ⟨_ | answer, hfound, rfl⟩ := h
  · exact ha
  · obtain ⟨source, line, column, hline, -, hmove⟩ := move_eq hm hfound rename
    rw [hmove]
    refine Mapping.fault?_eq_none_iff.mpr ⟨(Mapping.fault?_eq_none_iff.mp ha).1, ?_, ?_⟩
    · rintro _ ⟨⟩
      exact hline
    · rintro ⟨⟩

/-- **What taking a builder through a map does.** Every mapping is moved, and sources and names are
registered anew. -/
theorem applyMap_cases {b b' : Builder} {m : LoadedMap} {file path : Option String}
    (h : b.applyMap m file path = .ok b') :
    ∃ given moved contents, file.or m.file = some given ∧
      List.Forall₂ (Moves m (SourceRoot.relativize b.root given)
        fun source => SourceRoot.relativize b.root (rebase path source)) b.mappings moved ∧
      b' = { b with
        sources := moved.foldl registerSource .empty
        names := moved.foldl registerName .empty
        log := b.log.replace moved
        contents := contents } := by
  unfold applyMap at h
  split at h
  · cases h
  · rename_i given hgiven
    obtain ⟨found, hfound, hcopy⟩ := bind_eq_ok_iff.mp h
    obtain ⟨contents, hb'⟩ := sameMappings_copyContents hcopy
    exact ⟨given, _, contents, hgiven, forall₂_zipWith _ (mapM_eq_ok_iff.mp hfound), hb'⟩

/-- **Being taken through a sound map keeps a builder sound.** -/
theorem Sound.applyMap {b b' : Builder} {m : LoadedMap} {file path : Option String}
    (hb : b.Sound) (hm : m.Sound) (h : b.applyMap m file path = .ok b') : b'.Sound := by
  obtain ⟨given, moved, contents, -, hmoved, rfl⟩ := applyMap_cases h
  refine ⟨?_, rfl, rfl, hb.log.replace ?_⟩
  · intro a' ha'
    obtain ⟨a, ha, hmove⟩ := exists_of_forall₂_right hmoved a' ha'
    exact hmove.fault?_eq_none hm (hb.faultless a ha)
  · exact map_eq_of_forall₂ Moves.generated hmoved

end Builder

end SourceMap

import Mathlib
import SourceMap.Proofs.Running
import SourceMap.Proofs.StringTable
import SourceMap.Proofs.Table

/-!
# Sound views

A view is sound when its entries belong to its string tables. The mappings of a sound view have no
fault (`Sound.fault?_eq_none`), and what it answers is either nothing or a whole place
(`Sound.complete_originalPositionFor`). Computing spans keeps a view sound.
-/

set_option autoImplicit false

namespace SourceMap

/-! ## Mappings without fault -/

/-- A mapping has no fault when its lines count from 1 and it has no name without a source. -/
theorem Mapping.fault?_eq_none_iff {m : Mapping} :
    m.fault? = none ↔ m.generated.line ≠ 0 ∧ (∀ o ∈ m.original, o.position.line ≠ 0) ∧
      (m.original = none → m.name = none) := by
  -- the checks come in this order, and the first that fails decides
  by_cases hline : m.generated.line = 0
  · simp [fault?, hline]
  · obtain ⟨generated, _ | o, name⟩ := m
    · simp [fault?, hline]
    · by_cases holine : o.position.line = 0
      · simp [fault?, hline, holine]
      · simp [fault?, hline, holine]

/-! ## Mappings of entries -/

/-- How many slots the string tables of a view have. -/
def View.sizes (v : View) : TableSizes :=
  { sources := v.sources.size, names := v.names.size }

/-- Only an entry with a place gives a mapping with a name. -/
theorem View.name_mapping_of_original {v : View} {e : Entry} (h : (v.mapping e).original = none) :
    (v.mapping e).name = none := by
  obtain ⟨generated, _ | origin, last⟩ := e
  · rfl
  · cases h

/-- Just the entries with a place give a mapping with an original location. -/
theorem View.isSome_original_mapping (v : View) (e : Entry) :
    (v.mapping e).original.isSome = e.origin.isSome := by
  obtain ⟨generated, _ | origin, last⟩ := e
  · rfl
  · rfl

/-- The mapping of an entry that belongs to tables has no fault. -/
theorem View.fault?_mapping {v : View} {sizes : TableSizes} {e : Entry} (h : e.Fits sizes) :
    (v.mapping e).fault? = none := by
  refine Mapping.fault?_eq_none_iff.mpr ⟨h.generatedLine, ?_, name_mapping_of_original⟩
  intro o ho
  obtain ⟨place, hplace, rfl⟩ := Option.map_eq_some_iff.mp ho
  obtain ⟨origin, horigin, rfl⟩ := Option.map_eq_some_iff.mp hplace
  exact h.originalLine origin horigin

/-! ## Growing tables -/

/-- An entry that belongs to tables belongs to larger ones. -/
theorem Entry.Fits.mono {sizes sizes' : TableSizes} {e : Entry} (h : e.Fits sizes)
    (hsources : sizes.sources ≤ sizes'.sources) (hnames : sizes.names ≤ sizes'.names) :
    e.Fits sizes' :=
  { h with
    source := fun o ho => Nat.lt_of_lt_of_le (h.source o ho) hsources
    name := fun o ho n hn => Nat.lt_of_lt_of_le (h.name o ho n hn) hnames }

/-- An entry keeps its mapping while the string tables grow. -/
theorem View.mapping_of_prefix {v w : View} {e : Entry} (he : e.Fits v.sizes)
    (hsources : v.sources.toList <+: w.sources.toList)
    (hnames : v.names.toList <+: w.names.toList) (hroot : w.root = v.root) :
    w.mapping e = v.mapping e := by
  obtain ⟨generated, _ | ⟨place, name⟩, last⟩ := e
  · rfl
  · -- the slots of the entry are those of the smaller tables
    have hsource : w.sourceAt place.source = v.sourceAt place.source := by
      rw [sourceAt, sourceAt, hroot, StringTable.get?_of_prefix hsources (he.source _ rfl)]
    have hname : name.bind w.names.get? = name.bind v.names.get? := by
      cases name with
      | none => rfl
      | some n => exact StringTable.get?_of_prefix hnames (he.name _ rfl n rfl)
    show Mapping.mk generated (some ⟨w.sourceAt place.source, place.position⟩)
      (name.bind w.names.get?) = _
    rw [hsource, hname]
    rfl

/-- Views with the same strings in their slots stand for the same mappings. -/
theorem View.mapping_congr {v w : View} (hsources : w.sources.toList = v.sources.toList)
    (hnames : w.names.toList = v.names.toList) (hroot : w.root = v.root) (e : Entry) :
    w.mapping e = v.mapping e := by
  have hget : w.names.get? = v.names.get? := by
    funext i
    rw [StringTable.get?_eq, StringTable.get?_eq, hnames]
  have hat (slot : Nat) : w.sourceAt slot = v.sourceAt slot := by
    rw [sourceAt, sourceAt, hroot, StringTable.get?_eq, StringTable.get?_eq, hsources]
  simp only [mapping, hget, hat]

/-- A mapping with another name for its source. -/
def Mapping.mapSource (rename : String → String) (m : Mapping) : Mapping :=
  { m with original := m.original.map fun o => { o with source := rename o.source } }

/-- A mapping stays as it is if its source keeps its name. -/
theorem Mapping.mapSource_of_eq {rename : String → String} {m : Mapping}
    (h : ∀ s, m.source? = some s → rename s = s) : m.mapSource rename = m := by
  obtain ⟨generated, _ | o, name⟩ := m
  · rfl
  · have hsame : rename o.source = o.source := h o.source rfl
    simp [Mapping.mapSource, hsame]

/-- Views with other names for their sources stand for mappings with other names. -/
theorem View.mapping_of_map {v w : View} {rename : String → String} {e : Entry}
    (he : e.Fits v.sizes) (hroot : v.root = none)
    (hsources : w.sources.toList = v.sources.toList.map rename)
    (hnames : w.names.toList = v.names.toList) :
    w.mapping e = (v.mapping e).mapSource fun s => SourceRoot.resolve w.root (rename s) := by
  obtain ⟨generated, _ | ⟨place, name⟩, last⟩ := e
  · rfl
  · have hslot : place.source < v.sources.toList.length := he.source _ rfl
    have hget : w.names.get? = v.names.get? := by
      funext i
      rw [StringTable.get?_eq, StringTable.get?_eq, hnames]
    have hsource : w.sourceAt place.source =
        SourceRoot.resolve w.root (rename (v.sourceAt place.source)) := by
      simp [sourceAt, hroot, StringTable.get?_eq, hsources, SourceRoot.resolve, hslot]
    show Mapping.mk generated (some ⟨w.sourceAt place.source, place.position⟩)
      (name.bind w.names.get?) = _
    rw [hsource, hget]
    rfl

namespace View

/-! ## Soundness -/

/-- Whether the entries of a view belong to its string tables. -/
def Sound (v : View) : Prop :=
  ∀ e ∈ v.table.generated.toList, e.Fits v.sizes

theorem Sound.fault?_eq_none {v : View} (h : v.Sound) {m : Mapping}
    (hm : m ∈ v.mappings .generated) : m.fault? = none := by
  obtain ⟨e, he, rfl⟩ := List.mem_map.mp hm
  exact fault?_mapping (h e he)

open scoped List in
/-- In original order there are just the mappings with an original location. -/
theorem perm_mappings_original (v : View) :
    (v.mappings .original).Perm ((v.mappings .generated).filter fun m => m.original.isSome) := by
  have horigin : ((fun m : Mapping => m.original.isSome) ∘ v.mapping) =
      fun e => e.origin.isSome := by
    funext e
    exact v.isSome_original_mapping e
  have hfilter : (v.mappings .generated).filter (fun m => m.original.isSome) =
      (v.table.generated.toList.filter fun e => e.origin.isSome).map v.mapping := by
    rw [← horigin]
    exact List.filter_map
  calc v.mappings .original
    _ = v.table.original.toList.map v.mapping := rfl
    _ ~ (v.table.generated.toList.filter fun e => e.origin.isSome).map v.mapping :=
        v.table.perm_original.map v.mapping
    _ = (v.mappings .generated).filter fun m => m.original.isSome := hfilter.symm

end View

/-! ## Spans -/

namespace Entry

/-- Spans have no part in whether an entry belongs to tables. -/
theorem Fits.spanTo {sizes : TableSizes} {e : Entry} (h : e.Fits sizes) (next : Option Entry) :
    (e.spanTo next).Fits sizes :=
  ⟨h.generatedLine, h.originalLine, h.source, h.name⟩

theorem fits_of_mem_withSpans {sizes : TableSizes} {es : List Entry}
    (h : ∀ e ∈ es, e.Fits sizes) : ∀ e ∈ withSpans es, e.Fits sizes := by
  intro e he
  obtain ⟨i, hi, rfl⟩ := List.getElem_of_mem he
  simp only [withSpans, List.getElem_zipWith]
  exact (h _ (List.getElem_mem _)).spanTo _

end Entry

namespace View

/-- Computing spans keeps a view sound. -/
theorem Sound.withSpans {v : View} (h : v.Sound) : v.withSpans.Sound := by
  intro e he
  exact Entry.fits_of_mem_withSpans h e he

end View

/-! ## Answers -/

/-- An entry that is found is one of the table. -/
theorem MappingTable.mem_of_findGenerated? {t : MappingTable} {p : Position} {bias : Bias}
    {e : Entry} (h : t.findGenerated? p bias = some e) : e ∈ t.generated.toList := by
  obtain ⟨i, -, hi⟩ := Option.bind_eq_some_iff.mp h
  exact Array.mem_toList_iff.mpr (Array.mem_of_getElem? hi)

/-- What a mapping says of its generated position. -/
def Mapping.answer (m : Mapping) : OriginalPosition :=
  match m.original with
  | none => {}
  | some o =>
    { source := some o.source
      line := some o.position.line
      column := some o.position.column
      name := m.name }

/-- A view answers with the mapping of the entry that it finds, if that is on the same line. -/
theorem View.originalPositionFor_eq (v : View) (p : Position) (bias : Bias) :
    v.originalPositionFor p bias = match v.table.findGenerated? p bias with
      | none => {}
      | some e => if e.generated.line = p.line then (v.mapping e).answer else {} := by
  unfold originalPositionFor
  cases v.table.findGenerated? p bias with
  | none => rfl
  | some e =>
      obtain ⟨generated, _ | origin, last⟩ := e
      · rfl
      · rfl

/-- Whether an answer is nothing, or a whole place whose line counts from 1. -/
def OriginalPosition.Complete (p : OriginalPosition) : Prop :=
  p = {} ∨ ∃ source line column, line ≠ 0 ∧
    p = { source := some source, line := some line, column := some column, name := p.name }

theorem OriginalPosition.complete_empty : OriginalPosition.Complete {} := Or.inl rfl

/-- An answer that is not nothing is a whole place. -/
theorem OriginalPosition.Complete.of_not_isEmpty {p : OriginalPosition} (h : p.Complete)
    (hp : p.isEmpty = false) : ∃ source line column, line ≠ 0 ∧
      p = { source := some source, line := some line, column := some column, name := p.name } := by
  rcases h with rfl | h
  · cases hp
  · exact h

theorem Mapping.complete_answer {m : Mapping} (h : m.fault? = none) : m.answer.Complete := by
  have holine := (Mapping.fault?_eq_none_iff.mp h).2.1
  obtain ⟨generated, _ | o, name⟩ := m
  · exact OriginalPosition.complete_empty
  · exact Or.inr ⟨o.source, o.position.line, o.position.column, holine o rfl, rfl⟩

namespace View

/-- **A sound view answers with whole places.** -/
theorem Sound.complete_originalPositionFor {v : View} (h : v.Sound) (p : Position) (bias : Bias) :
    (v.originalPositionFor p bias).Complete := by
  rw [originalPositionFor_eq]
  split
  · exact OriginalPosition.complete_empty
  · rename_i e hfind
    split
    · have hfits := h e (MappingTable.mem_of_findGenerated? hfind)
      exact Mapping.complete_answer (fault?_mapping hfits)
    · exact OriginalPosition.complete_empty

end View

end SourceMap

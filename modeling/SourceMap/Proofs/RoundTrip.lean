import Mathlib
import SourceMap.Proofs.Reachable
import SourceMap.Proofs.Repetitions

/-!
# Builders written and read

The text that a builder writes is read back as the entries of its mappings, each run of equal ones
once (`decode_writeMappings`). The string tables of a builder that can be made hold every source and
name of its mappings, so that the entries spell the mappings out again (`mapping_entry`).
-/

set_option autoImplicit false

namespace SourceMap

namespace Builder

/-! ## Mappings spelled out -/

/-- The view of a table of a builder. -/
def viewOf (b : Builder) (table : MappingTable) : View :=
  { table, sources := b.sources, names := b.names }

/-- **The entry of a mapping stands for the mapping.** -/
theorem Sound.mapping_entry {b : Builder} (h : b.Sound) {m : Mapping} (hm : m ∈ b.mappings)
    (table : MappingTable) : (b.viewOf table).mapping (b.entry m) = m := by
  have hname := (Mapping.fault?_eq_none_iff.mp (h.faultless m hm)).2.2
  obtain ⟨generated, _ | o, name⟩ := m
  · have hnone : name = none := hname rfl
    rw [hnone]
    rfl
  · obtain ⟨source, hsource⟩ := h.exists_source hm rfl
    have hslot : (b.viewOf table).sourceAt source = o.source := by
      show (b.sources.get? source).getD "" = o.source
      rw [StringTable.get?_of_indexOf? hsource]
      rfl
    have hnames : (name.bind b.names.indexOf?).bind b.names.get? = name := by
      cases name with
      | none => rfl
      | some name =>
          obtain ⟨i, hi⟩ := h.exists_name hm rfl
          show (b.names.indexOf? name).bind b.names.get? = some name
          rw [hi]
          exact StringTable.get?_of_indexOf? hi
    have hentry : b.entry ⟨generated, some o, name⟩ =
        { generated
          origin := some
            { place := { source, position := o.position }
              name := name.bind b.names.indexOf? } } := by
      simp only [entry, hsource, Option.map_some]
    rw [hentry]
    show Mapping.mk generated (some ⟨(b.viewOf table).sourceAt source, o.position⟩)
      ((name.bind b.names.indexOf?).bind b.names.get?) = _
    rw [hslot, hnames]

open scoped List in
/-- **The table of the entries of mappings spells the mappings out.** -/
theorem Sound.perm_mappings_ofList {b : Builder} (h : b.Sound) {ms : List Mapping}
    (hms : ∀ m ∈ ms, m ∈ b.mappings) :
    ((b.viewOf (.ofList (ms.map b.entry))).mappings .generated).Perm ms := by
  set v := b.viewOf (.ofList (ms.map b.entry)) with hv
  have hspelled : ∀ m ∈ ms, v.mapping (b.entry m) = m := fun m hm =>
    h.mapping_entry (hms m hm) _
  calc v.mappings .generated
    _ = (Entry.sortGenerated (ms.map b.entry)).map v.mapping := rfl
    _ ~ (ms.map b.entry).map v.mapping := (Entry.perm_sortGenerated _).map v.mapping
    _ = ms.map (v.mapping ∘ b.entry) := List.map_map
    _ = ms.map id := List.map_congr_left hspelled
    _ = ms := List.map_id ms

/-! ## Writing and reading -/

theorem line_le_of_isLE {p q : Position} (h : (compare p q).isLE = true) : p.line ≤ q.line := by
  have hline : (compareOn Position.line p q).isLE = true := isLE_of_compareLex h
  exact Std.isLE_compare.mp hline

/-- The mappings that are written are just those of the builder. -/
theorem mem_eraseReps_sorted {b : Builder} {m : Mapping} :
    m ∈ b.log.sorted.eraseReps ↔ m ∈ b.mappings :=
  mem_eraseReps.trans b.log.perm_sorted.mem_iff

/-- The entries that are written are read back, each run of equal ones once. -/
theorem Sound.decodeAll_writeMappings {b : Builder} (h : b.Sound)
    (hsources : b.sources.size ≤ UInt32.size) (hnames : b.names.size ≤ UInt32.size) :
    Entry.decodeAll b.writeMappings b.sizes = .ok (b.log.sorted.eraseReps.map b.entry) := by
  apply Entry.decodeAll_encodeAll hsources hnames
  · -- the writer goes from line to line, and leaving out repetitions keeps the order
    have hsorted := h.log.inOrder_sorted.sublist (eraseReps_sublist b.log.sorted)
    exact List.pairwise_map.mpr (hsorted.imp line_le_of_isLE)
  · intro e he
    obtain ⟨m, hm, rfl⟩ := List.mem_map.mp he
    have hfault := h.faultless m (mem_eraseReps_sorted.mp hm)
    exact fits_entry hfault
  · intro e he
    obtain ⟨m, -, rfl⟩ := List.mem_map.mp he
    rfl

/-- **What a builder writes is read back.** The text is read as the mappings in order, each run of
equal ones once, with slots in place of sources and names. Spelled out, these are just the mappings
of the builder. -/
theorem decode_writeMappings {b : Builder} (h : b.Reachable)
    (hsources : b.sources.size < UInt32.size - 1) (hnames : b.names.size < UInt32.size - 1) :
    ∃ table, MappingTable.decode b.writeMappings b.sizes = .ok table ∧
      table.generated.toList = Entry.sortGenerated (b.log.sorted.eraseReps.map b.entry) ∧
      ((b.viewOf table).mappings .generated).Perm b.log.sorted.eraseReps ∧
      ∀ m, m ∈ (b.viewOf table).mappings .generated ↔ m ∈ b.mappings := by
  have hsound := h.sound
  have hdecode := hsound.decodeAll_writeMappings (by omega) (by omega)
  have hperm := hsound.perm_mappings_ofList fun m hm => mem_eraseReps_sorted.mp hm
  refine ⟨.ofList (b.log.sorted.eraseReps.map b.entry), ?_, rfl, hperm, ?_⟩
  · rw [MappingTable.decode, hdecode, ok_map]
  · intro m
    exact hperm.mem_iff.trans mem_eraseReps_sorted

/-- A mapping that is added twice is written and read once. -/
theorem decode_writeMappings_repeated :
    let m : Mapping :=
      { generated := ⟨1, 0⟩, original := some ⟨"a.js", ⟨1, 0⟩⟩, name := some "x" }
    let m' : Mapping := { generated := ⟨2, 7⟩, original := some ⟨"b.js", ⟨3, 0⟩⟩ }
    ∃ b : Builder, b.mappings = [m, m, m'] ∧ b.sources.size = 2 ∧ b.names.size = 1 ∧
      ∃ table, MappingTable.decode b.writeMappings b.sizes = .ok table ∧
        ((b.viewOf table).mappings .generated).Perm [m, m'] := by
  intro m m'
  have h₁ := Reachable.addMapping m (.new none none) (addMapping_eq_ok_iff.mpr ⟨rfl, rfl⟩)
  have h₂ := Reachable.addMapping m h₁ (addMapping_eq_ok_iff.mpr ⟨rfl, rfl⟩)
  have h₃ := Reachable.addMapping m' h₂ (addMapping_eq_ok_iff.mpr ⟨rfl, rfl⟩)
  obtain ⟨table, hdecode, -, hperm, -⟩ := decode_writeMappings h₃ (by decide) (by decide)
  exact ⟨_, rfl, rfl, rfl, table, hdecode, hperm⟩

end Builder

end SourceMap

import Mathlib
import SourceMap.Mappings.Merge
import SourceMap.Proofs.Except
import SourceMap.Proofs.View

/-!
# Sections put together

A merge under way spells out the mappings that have been added to it, each at its position in the
file (`spelled_add`), because the slots of earlier mappings stay while the string tables grow. Its
view therefore lists the mappings of all sections in the coordinates of the file
(`View.merge_eq_ok`), and where there is none the first section that fails is named
(`View.merge_eq_error`).
-/

set_option autoImplicit false

namespace SourceMap

/-! ## Positions of a section -/

/-- Whether `g` is the position of the file where the position `p` of a section is that starts at
`offset`. Lines count from 1 in all three, and columns are shifted on the first line only. -/
def Position.ShiftedTo (offset p g : Position) : Prop :=
  g.line.toNat + 1 = p.line.toNat + offset.line.toNat ∧
    g.column.toNat = p.column.toNat + if p.line = 1 then offset.column.toNat else 0

theorem Coordinate.add?_eq_some_iff {a b w : UInt32} :
    add? a b = some w ↔ w.toNat = a.toNat + b.toNat := by
  rw [add?, ofInt?_eq_some_iff]
  omega

namespace Position

theorem shiftColumn?_eq_some_iff {offset : Position} {line column w : UInt32} :
    offset.shiftColumn? line column = some w ↔
      w.toNat = column.toNat + if line = 1 then offset.column.toNat else 0 := by
  unfold shiftColumn?
  split
  · exact Coordinate.add?_eq_some_iff
  · rw [Option.some.injEq, Nat.add_zero, ← UInt32.toNat_inj, eq_comm]

/-- **Positions are shifted exactly.** There is no position of the file where a number of it would
not be a coordinate. -/
theorem toGlobal?_eq_some_iff {offset p g : Position} :
    offset.toGlobal? p = some g ↔ ShiftedTo offset p g := by
  unfold toGlobal? ShiftedTo
  rw [Option.bind_eq_bind, Option.bind_eq_some_iff]
  constructor
  · rintro ⟨line, hline, hrest⟩
    obtain ⟨column, hcolumn, hg⟩ := Option.bind_eq_some_iff.mp hrest
    cases hg
    rw [Coordinate.ofInt?_eq_some_iff] at hline
    exact ⟨by show line.toNat + 1 = _; omega, shiftColumn?_eq_some_iff.mp hcolumn⟩
  · rintro ⟨hline, hcolumn⟩
    refine ⟨g.line, Coordinate.ofInt?_eq_some_iff.mpr (by omega), ?_⟩
    exact Option.bind_eq_some_iff.mpr ⟨g.column, shiftColumn?_eq_some_iff.mpr hcolumn, rfl⟩

/-- Lines of the file count from 1 where those of the section do. -/
theorem ShiftedTo.line_ne_zero {offset p g : Position} (h : ShiftedTo offset p g)
    (hoffset : offset.line ≠ 0) (hp : p.line ≠ 0) : g.line ≠ 0 := by
  have hpos : offset.line.toNat ≠ 0 := fun h => hoffset (UInt32.toNat_inj.mp h)
  have hppos : p.line.toNat ≠ 0 := fun h => hp (UInt32.toNat_inj.mp h)
  intro hg
  have hline := h.1
  rw [hg, UInt32.toNat_zero] at hline
  omega

end Position

/-- Whether `m'` is the mapping of the file that the mapping `m` of a section is, the section
starting at `offset`. -/
def Mapping.ShiftedTo (offset : Position) (m m' : Mapping) : Prop :=
  offset.ShiftedTo m.generated m'.generated ∧ m'.original = m.original ∧ m'.name = m.name

namespace Merge

/-! ## Adding a mapping -/

/-- How many slots the string tables of a merge have. -/
def sizes (g : Merge) : TableSizes :=
  g.view.sizes

/-- The mappings that have been added, in order. -/
def spelled (g : Merge) : List Mapping :=
  g.entries.reverse.map g.view.mapping

/-- Whether the entries of a merge belong to its string tables. -/
def Sound (g : Merge) : Prop :=
  ∀ e ∈ g.entries, e.Fits g.sizes

theorem sound_empty : Sound {} := fun _ he => (List.not_mem_nil he).elim

theorem prefix_addName (names : StringTable) (name : Option String) :
    names.toList <+: (addName names name).2.toList := by
  cases name with
  | none => exact List.prefix_rfl
  | some name => exact names.prefix_add name false

/-- The slot of a name that has been added holds the name. -/
theorem bind_get?_addName (names : StringTable) (name : Option String) :
    (addName names name).1.bind (addName names name).2.get? = name := by
  cases name with
  | none => rfl
  | some name => exact names.get?_add_self name false

theorem lt_size_of_mem_addName {names : StringTable} {name : Option String} {n : Nat}
    (h : n ∈ (addName names name).1) : n < (addName names name).2.size := by
  cases name with
  | none => cases h
  | some name =>
      cases h
      exact StringTable.lt_size_of_get? (names.get?_add_self name false)

/-- The string tables grow when a mapping is added. -/
theorem prefix_add (g : Merge) (p : Position) (m : Mapping) :
    g.sources.toList <+: (g.add p m).sources.toList ∧
      g.names.toList <+: (g.add p m).names.toList := by
  obtain ⟨generated, _ | o, name⟩ := m
  · exact ⟨List.prefix_rfl, List.prefix_rfl⟩
  · exact ⟨g.sources.prefix_add o.source false, prefix_addName g.names name⟩

/-- Adding a mapping puts one entry in front, which belongs to the tables and stands for the
mapping. -/
theorem entries_add (g : Merge) {p : Position} {m : Mapping} (hp : p.line ≠ 0)
    (hm : m.fault? = none) : ∃ e : Entry, (g.add p m).entries = e :: g.entries ∧
      e.Fits (g.add p m).sizes ∧ (g.add p m).view.mapping e = { m with generated := p } := by
  obtain ⟨-, holine, hname⟩ := Mapping.fault?_eq_none_iff.mp hm
  obtain ⟨generated, _ | o, name⟩ := m
  · -- a mapping without original location has no name either, and needs no slot
    refine ⟨{ generated := p }, rfl, ⟨hp, ?_, ?_, ?_⟩, ?_⟩
    · rintro o ⟨⟩
    · rintro o ⟨⟩
    · rintro o ⟨⟩
    · rw [hname rfl]
      rfl
  · -- the slots that adding tells are slots of the tables that have grown
    have hslot := g.sources.get?_add_self o.source false
    refine ⟨_, rfl, ⟨hp, ?_, ?_, ?_⟩, ?_⟩
    · rintro _ ⟨⟩
      exact holine o rfl
    · rintro _ ⟨⟩
      exact StringTable.lt_size_of_get? hslot
    · rintro _ ⟨⟩ n hn
      exact lt_size_of_mem_addName hn
    · show Mapping.mk p (some ⟨((g.sources.add o.source false).2.get?
        (g.sources.add o.source false).1).getD "", o.position⟩)
        ((addName g.names name).1.bind (addName g.names name).2.get?) = _
      rw [hslot, bind_get?_addName]
      rfl

theorem Sound.add {g : Merge} (h : g.Sound) {p : Position} {m : Mapping} (hp : p.line ≠ 0)
    (hm : m.fault? = none) : (g.add p m).Sound := by
  obtain ⟨e, hentries, he, -⟩ := g.entries_add hp hm
  obtain ⟨hsources, hnames⟩ := g.prefix_add p m
  intro a ha
  rw [hentries] at ha
  rcases List.mem_cons.mp ha with rfl | ha
  · exact he
  · exact (h a ha).mono (StringTable.size_le_of_prefix hsources)
      (StringTable.size_le_of_prefix hnames)

/-- **Adding a mapping changes none of the mappings before it.** -/
theorem spelled_add {g : Merge} (h : g.Sound) {p : Position} {m : Mapping} (hp : p.line ≠ 0)
    (hm : m.fault? = none) : (g.add p m).spelled = g.spelled ++ [{ m with generated := p }] := by
  obtain ⟨e, hentries, -, hspelled⟩ := g.entries_add hp hm
  obtain ⟨hsources, hnames⟩ := g.prefix_add p m
  -- the tables have only grown, so that earlier entries stand for what they stood for
  have hbefore : g.entries.reverse.map (g.add p m).view.mapping = g.spelled :=
    List.map_congr_left fun a ha =>
      View.mapping_of_prefix (h a (List.mem_reverse.mp ha)) hsources hnames rfl
  rw [spelled, hentries, List.reverse_cons, List.map_append, hbefore, List.map_singleton, hspelled]

/-! ## Adding sections -/

/-- Whether `part` is what a section has for the file: its mappings, at their positions there. -/
def Lists (s : Position × Except Error (List Mapping)) (part : List Mapping) : Prop :=
  ∃ ms, s.2 = .ok ms ∧ List.Forall₂ (Mapping.ShiftedTo s.1) ms part

/-- Why a section has nothing for the file: its mappings cannot be read, or there is one that has no
position in the file, the first of which counts. -/
inductive Fails (s : Position × Except Error (List Mapping)) : Error → Prop
  | unreadable {e : Error} : s.2 = .error e → Fails s e
  | misfit {before after : List Mapping} {m : Mapping} :
      s.2 = .ok (before ++ m :: after) → (∀ a ∈ before, ∃ a', Mapping.ShiftedTo s.1 a a') →
      (¬ ∃ m', Mapping.ShiftedTo s.1 m m') → Fails s (.outOfRange (.mapping m))

/-- Whether the offset of a section and its mappings are such as maps have. -/
structure Ready (s : Position × Except Error (List Mapping)) : Prop where
  offset : s.1.line ≠ 0
  mappings : ∀ ms, s.2 = .ok ms → ∀ m ∈ ms, m.fault? = none

/-- A section that fails has nothing for the file. -/
theorem Fails.not_lists {s : Position × Except Error (List Mapping)} {e : Error} (h : Fails s e)
    (part : List Mapping) : ¬ Lists s part := by
  rintro ⟨ms, hms, hshift⟩
  cases h with
  | unreadable he => rw [he] at hms; cases hms
  | misfit hread _ hm =>
      rw [hread] at hms
      cases hms
      obtain ⟨m', -, hm'⟩ :=
        exists_of_forall₂ hshift _ (List.mem_append_right _ List.mem_cons_self)
      exact hm ⟨m', hm'⟩

section

variable {offset : Position} {index : Nat}

/-- A mapping has a position in the file just when its coordinates can be shifted. -/
theorem exists_shiftedTo_iff {m : Mapping} :
    (∃ m', Mapping.ShiftedTo offset m m') ↔ ∃ p, offset.toGlobal? m.generated = some p := by
  constructor
  · rintro ⟨m', hshift, -, -⟩
    exact ⟨m'.generated, Position.toGlobal?_eq_some_iff.mpr hshift⟩
  · rintro ⟨p, hp⟩
    exact ⟨{ m with generated := p }, Position.toGlobal?_eq_some_iff.mp hp, rfl, rfl⟩

/-- A section that is added puts its mappings after those before it. -/
theorem addSection_eq_ok (hoffset : offset.line ≠ 0) {ms : List Mapping}
    (hms : ∀ m ∈ ms, m.fault? = none) :
    ∀ {g g' : Merge}, g.Sound → addSection index offset g ms = .ok g' → g'.Sound ∧
      ∃ part, List.Forall₂ (Mapping.ShiftedTo offset) ms part ∧
        g'.spelled = g.spelled ++ part := by
  induction ms with
  | nil =>
      intro g g' hg h
      cases h
      exact ⟨hg, [], .nil, (List.append_nil _).symm⟩
  | cons m ms ih =>
      intro g g' hg h
      rw [addSection] at h
      split at h
      · cases h
      · rename_i p hp
        -- the mapping has a position in the file, and the rest of the section comes after it
        have hfault := hms m List.mem_cons_self
        have hshift := Position.toGlobal?_eq_some_iff.mp hp
        have hline := hshift.line_ne_zero hoffset (Mapping.fault?_eq_none_iff.mp hfault).1
        obtain ⟨hg', part, hpart, hspelled⟩ :=
          ih (fun a ha => hms a (List.mem_cons_of_mem m ha)) (hg.add hline hfault) h
        refine ⟨hg', { m with generated := p } :: part, .cons ⟨hshift, rfl, rfl⟩ hpart, ?_⟩
        rw [hspelled, spelled_add hg hline hfault, List.append_assoc]
        rfl

/-- A section that cannot be added has a mapping without a position in the file. -/
theorem addSection_eq_error {ms : List Mapping} {e : Error} :
    ∀ {g : Merge}, addSection index offset g ms = .error e → ∃ before m after,
      ms = before ++ m :: after ∧ (∀ a ∈ before, ∃ a', Mapping.ShiftedTo offset a a') ∧
        (¬ ∃ m', Mapping.ShiftedTo offset m m') ∧
        e = .inSection index (.outOfRange (.mapping m)) := by
  induction ms with
  | nil =>
      intro g h
      cases h
  | cons m ms ih =>
      intro g h
      rw [addSection] at h
      split at h
      · -- the first mapping does not fit, so none is before it
        rename_i hnone
        cases h
        refine ⟨[], m, ms, rfl, fun a ha => (List.not_mem_nil ha).elim, ?_, rfl⟩
        rw [exists_shiftedTo_iff, hnone]
        rintro ⟨p, hp⟩
        cases hp
      · rename_i p hp
        obtain ⟨before, a, after, rfl, hbefore, ha, he⟩ := ih h
        refine ⟨m :: before, a, after, rfl, ?_, ha, he⟩
        intro b hb
        rcases List.mem_cons.mp hb with rfl | hb
        · exact exists_shiftedTo_iff.mpr ⟨p, hp⟩
        · exact hbefore b hb

end

/-- Sections that are added put their mappings one section after the other. -/
theorem addSections_eq_ok {sections : List (Position × Except Error (List Mapping))}
    (hready : ∀ s ∈ sections, Ready s) :
    ∀ {index : Nat} {g g' : Merge}, g.Sound → addSections index g sections = .ok g' →
      g'.Sound ∧ ∃ parts, List.Forall₂ Lists sections parts ∧
        g'.spelled = g.spelled ++ parts.flatten := by
  induction sections with
  | nil =>
      intro index g g' hg h
      cases h
      exact ⟨hg, [], .nil, (List.append_nil _).symm⟩
  | cons s sections ih =>
      intro index g g' hg h
      have hs := hready s List.mem_cons_self
      obtain ⟨offset, _ | ms⟩ := s
      · cases h
      · rw [addSections] at h
        split at h
        · cases h
        · rename_i g₁ hadd
          obtain ⟨hg₁, part, hpart, hspelled₁⟩ :=
            addSection_eq_ok hs.offset (hs.mappings ms rfl) hg hadd
          obtain ⟨hg', parts, hparts, hspelled⟩ :=
            ih (fun t ht => hready t (List.mem_cons_of_mem _ ht)) hg₁ h
          refine ⟨hg', part :: parts, .cons ⟨ms, rfl, hpart⟩ hparts, ?_⟩
          rw [hspelled, hspelled₁, List.append_assoc, List.flatten_cons]

/-- Where sections cannot be added, the first that fails is named. -/
theorem addSections_eq_error {sections : List (Position × Except Error (List Mapping))}
    (hready : ∀ s ∈ sections, Ready s) {e : Error} :
    ∀ {index : Nat} {g : Merge}, g.Sound → addSections index g sections = .error e →
      ∃ before s after cause, sections = before ++ s :: after ∧
        (∀ t ∈ before, ∃ part, Lists t part) ∧ Fails s cause ∧
        e = .inSection (index + before.length) cause := by
  induction sections with
  | nil =>
      intro index g _ h
      cases h
  | cons s sections ih =>
      intro index g hg h
      have hs := hready s List.mem_cons_self
      obtain ⟨offset, cause | ms⟩ := s
      · cases h
        exact ⟨[], _, sections, cause, rfl, fun t ht => (List.not_mem_nil ht).elim,
          .unreadable rfl, rfl⟩
      · rw [addSections] at h
        split at h
        · -- the mappings of this section can be read, but one of them does not fit
          rename_i e' hadd
          cases h
          obtain ⟨before, m, after, rfl, hbefore, hm, rfl⟩ := addSection_eq_error hadd
          exact ⟨[], _, sections, _, rfl, fun t ht => (List.not_mem_nil ht).elim,
            .misfit rfl hbefore hm, rfl⟩
        · -- this section has been added, so the failure is in a later one
          rename_i g₁ hadd
          obtain ⟨hg₁, part, hpart, -⟩ := addSection_eq_ok hs.offset (hs.mappings ms rfl) hg hadd
          obtain ⟨before, t, after, cause, rfl, hbefore, ht, rfl⟩ :=
            ih (fun t ht => hready t (List.mem_cons_of_mem _ ht)) hg₁ h
          refine ⟨(offset, .ok ms) :: before, t, after, cause, rfl, ?_, ht, ?_⟩
          · intro a ha
            rcases List.mem_cons.mp ha with rfl | ha
            · exact ⟨part, ms, rfl, hpart⟩
            · exact hbefore a ha
          · rw [List.length_cons, Nat.add_assoc, Nat.add_comm 1]

end Merge

/-! ## The merged view -/

namespace View

open Merge

variable {sections : List (Position × Except Error (List Mapping))}

/-- **The merged view lists what the sections have for the file**, in the order of the file. -/
theorem merge_eq_ok (hready : ∀ s ∈ sections, Ready s) {v : View} (h : merge sections = .ok v) :
    v.Sound ∧ (∃ parts, List.Forall₂ Lists sections parts ∧
      (v.mappings .generated).Perm parts.flatten) ∧
    Mapping.InOrder (v.mappings .generated) := by
  obtain ⟨g, hadd, rfl⟩ := map_eq_ok_iff.mp h
  obtain ⟨hg, parts, hparts, hspelled⟩ := addSections_eq_ok hready sound_empty hadd
  have hperm := Entry.perm_sortGenerated g.entries.reverse
  refine ⟨?_, ⟨parts, hparts, ?_⟩, ?_⟩
  · intro e he
    exact hg e (List.mem_reverse.mp (hperm.mem_iff.mp he))
  · have hlisted : (g.view.mappings .generated).Perm g.spelled := hperm.map g.view.mapping
    rw [hspelled] at hlisted
    exact hlisted
  · exact List.pairwise_map.mpr (Entry.pairwise_sortGenerated g.entries.reverse)

/-- **Where there is no merged view, the first section that fails is named.** -/
theorem merge_eq_error (hready : ∀ s ∈ sections, Ready s) {e : Error}
    (h : merge sections = .error e) :
    ∃ before s after cause, sections = before ++ s :: after ∧
      (∀ t ∈ before, ∃ part, Lists t part) ∧ Fails s cause ∧
      e = .inSection before.length cause := by
  unfold merge at h
  cases hadd : addSections 0 {} sections with
  | error e' =>
      rw [hadd] at h
      cases h
      have hfirst := addSections_eq_error hready sound_empty hadd
      simp only [Nat.zero_add] at hfirst
      exact hfirst
  | ok g =>
      rw [hadd] at h
      cases h

end View

end SourceMap

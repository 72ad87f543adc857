import Mathlib
import SourceMap.Proofs.Acceptance
import SourceMap.Proofs.Alike
import SourceMap.Proofs.Reachable

/-!
# Look-ups handed to sections

An index map hands a look-up to one of its sections: of those that start at the last offset that is
not after the position it is the first (`Covers`). The section is asked for the position in its own
coordinates, and no other section can change the answer (`originalPositionFor_covers`). The
coordinates are differences of words that never wrap around (`Position.HasLocal`), since a section
that covers a position does not start after it, and starts on a line from 1 on. This rests on the
order of the sections, which every map that can be made has at every depth (`Reachable.ordered`).
-/

set_option autoImplicit false

namespace SourceMap

/-! ## Coordinates in a section -/

namespace Position

/-- Whether a position can be told in the coordinates of a section that starts at an offset: the
differences are none below zero, and the line is a word also when it counts from 1. -/
structure HasLocal (offset p : Position) : Prop where
  line : offset.line.toNat ≤ p.line.toNat
  column : p.line = offset.line → offset.column.toNat ≤ p.column.toNat
  fits : p.line.toNat - offset.line.toNat + 1 < UInt32.size

variable {offset p : Position}

/-- A position that is not before a section is within its coordinates. -/
theorem hasLocal_of_isLE (hoffset : offset.line ≠ 0) (h : (compare offset p).isLE) :
    HasLocal offset p := by
  have hpos : offset.line.toNat ≠ 0 := fun h => hoffset (UInt32.toNat_inj.mp h)
  have hbound := p.line.toNat_lt_size
  rw [isLE_iff] at h
  refine ⟨by omega, ?_, by omega⟩
  intro hline
  rw [hline] at h
  omega

theorem HasLocal.toNat_line (h : HasLocal offset p) :
    (offset.toLocal p).line.toNat = p.line.toNat - offset.line.toNat + 1 := by
  have hle : offset.line ≤ p.line := UInt32.le_iff_toNat_le.mpr h.line
  have hone : (1 : UInt32).toNat = 1 := rfl
  show (p.line - offset.line + 1).toNat = _
  rw [UInt32.toNat_add, UInt32.toNat_sub_of_le _ _ hle, hone, Nat.mod_eq_of_lt h.fits]

/-- Columns are shifted on the first line of the section only. -/
theorem toNat_column_toLocal (offset p : Position) : (offset.toLocal p).column.toNat =
    if p.line = offset.line then p.column.toNat - offset.column.toNat else p.column.toNat := by
  show (if p.line = offset.line then Coordinate.monus p.column offset.column
    else p.column).toNat = _
  split
  · exact Coordinate.toNat_monus _ _
  · rfl

end Position

namespace LoadedMap

/-! ## Sections in order at every depth -/

theorem Ordered.section {m : LoadedMap} {sections : List (Placed LoadedMap)} (h : m.Ordered)
    (hsections : m.sections? = some sections) {s : Placed LoadedMap} (hs : s ∈ sections) :
    s.map.Ordered := by
  cases h with
  | flat f => cases hsections
  | index _ _ hordered =>
      cases hsections
      exact hordered s hs

/-- The map at the end of a path has its sections in order. -/
theorem Ordered.descend {path : List Nat} : ∀ {m m' : LoadedMap}, m.Ordered →
    m.descend? path = some m' → m'.Ordered := by
  induction path with
  | nil =>
      intro m m' h hpath
      rw [descend?] at hpath
      cases hpath
      exact h
  | cons i path ih =>
      intro m m' h hpath
      cases m with
      | flat f =>
          rw [descend?] at hpath
          cases hpath
      | index file sections merged =>
          rw [descend?] at hpath
          obtain ⟨s, hs, hrest⟩ := Option.bind_eq_some_iff.mp hpath
          exact ih (h.section rfl (List.mem_of_getElem? hs)) hrest

/-- Whether sections are in order can be seen from their offsets alone. -/
theorem pairwise_iff_offsets (sections : List (Placed LoadedMap)) :
    (sections.Pairwise fun s t => (compare s.offset t.offset).isLE) ↔
      (sections.map Placed.offset).Pairwise fun p q => (compare p q).isLE := by
  rw [List.pairwise_map]

/-- **Computing spans keeps the sections in order**, also where it fails. -/
theorem Ordered.computeSpans {m : LoadedMap} (h : m.Ordered) : m.computeSpans.2.Ordered := by
  induction h with
  | flat f =>
      rw [LoadedMap.computeSpans]
      exact .flat _
  | @index file sections merged hline horder hordered ih =>
      have hsame := forall₂_computeSpansIn sections 0
      have hoffsets : (computeSpansIn 0 sections).2.map Placed.offset =
          sections.map Placed.offset := map_eq_of_forall₂ (fun h => h.1) hsame
      have hsections : ∀ s ∈ (computeSpansIn 0 sections).2, s.offset.line ≠ 0 ∧ s.map.Ordered := by
        intro s hs
        obtain ⟨s₀, hs₀, hoffset, hmap⟩ := exists_of_forall₂_right hsame s hs
        refine ⟨by rw [hoffset]; exact hline s₀ hs₀, ?_⟩
        rcases hmap with hmap | hmap
        · rw [hmap]
          exact hordered s₀ hs₀
        · rw [hmap]
          exact ih s₀ hs₀
      have hkept (merged' : Except Error View) :
          Ordered (.index file (computeSpansIn 0 sections).2 merged') := by
        refine .index (fun s hs => (hsections s hs).1) ?_ fun s hs => (hsections s hs).2
        rw [pairwise_iff_offsets, hoffsets, ← pairwise_iff_offsets]
        exact horder
      rw [LoadedMap.computeSpans]
      split
      · rename_i e sections' hspans
        rw [hspans] at hkept
        exact hkept _
      · rename_i sections' hspans
        rw [hspans] at hkept
        exact hkept _

/-- **Every map that can be made has its sections in order.** -/
theorem Reachable.ordered {m : LoadedMap} (h : m.Reachable) : m.Ordered :=
  h.induction (fun hm => .ofRecord _ hm) (fun _ => .flat _) .computeSpans
    fun hsections hs hm => hm.section hsections hs

/-! ## The section that covers a position -/

/-- Whether a section, at its index, covers a position: of those that start at the last offset that
is not after the position it is the first. -/
structure Covers (sections : List (Placed LoadedMap)) (p : Position) (i : Nat)
    (s : Placed LoadedMap) : Prop where
  get : sections[i]? = some s
  starts : (compare s.offset p).isLE
  last : ∀ t ∈ sections, (compare t.offset p).isLE → (compare t.offset s.offset).isLE
  first : ∀ j t, j < i → sections[j]? = some t → t.offset ≠ s.offset

variable {sections : List (Placed LoadedMap)} {p : Position} {i : Nat} {s : Placed LoadedMap}

/-- A look-up goes to the section that covers the position. -/
theorem sectionAt?_of_covers
    (horder : sections.Pairwise fun s t => (compare s.offset t.offset).isLE)
    (h : Covers sections p i s) : sectionAt? sections p = some i := by
  have hsorted : Search.Sorted Placed.offset sections.toArray :=
    Search.sorted_of_pairwise Placed.offset horder
  obtain ⟨hi, rfl⟩ := List.getElem?_eq_some_iff.mp h.get
  apply (Search.findIndex?_eq_some_iff hsorted).mpr
  refine ⟨hi, h.starts, ?_, ?_⟩
  · intro j hj hwithin
    exact h.last _ (List.getElem_mem hj) hwithin
  · intro j hj
    have hle := hsorted j i (by omega) hi
    have hne := h.first j sections[j] hj (List.getElem?_eq_getElem (by omega))
    rcases Ordering.isLE_iff_eq_lt_or_eq_eq.mp hle with hlt | heq
    · exact hlt
    · exact absurd (Std.LawfulEqCmp.eq_of_compare heq) hne

theorem covers_of_sectionAt?
    (horder : sections.Pairwise fun s t => (compare s.offset t.offset).isLE)
    (h : sectionAt? sections p = some i) : ∃ s, Covers sections p i s := by
  have hsorted : Search.Sorted Placed.offset sections.toArray :=
    Search.sorted_of_pairwise Placed.offset horder
  have hfinds := Search.finds_of_findIndex? hsorted h
  have hi : i < sections.length := hfinds.bound
  refine ⟨sections[i], List.getElem?_eq_getElem hi, hfinds.within, ?_, ?_⟩
  · intro t ht hle
    obtain ⟨j, hj, rfl⟩ := List.getElem_of_mem ht
    exact hfinds.nearest j hj hle
  · intro j t hj ht heq
    obtain ⟨hj', rfl⟩ := List.getElem?_eq_some_iff.mp ht
    have hlt : compare sections[j].offset sections[i].offset = .lt := hfinds.first j hj
    have hrefl : compare sections[j].offset sections[j].offset = .eq := Std.ReflOrd.compare_self
    rw [← heq, hrefl] at hlt
    cases hlt

/-- A look-up goes to no section just where none starts at the position or before it. -/
theorem sectionAt?_eq_none_iff
    (horder : sections.Pairwise fun s t => (compare s.offset t.offset).isLE) :
    sectionAt? sections p = none ↔ ∀ s ∈ sections, ¬ (compare s.offset p).isLE := by
  have hsorted : Search.Sorted Placed.offset sections.toArray :=
    Search.sorted_of_pairwise Placed.offset horder
  rw [sectionAt?, Search.findIndex?_eq_none_iff_of_mem hsorted]
  simp [Search.Within]

/-- Only the offsets decide to which section a look-up goes. -/
theorem sectionAt?_congr {others : List (Placed LoadedMap)}
    (h : others.map Placed.offset = sections.map Placed.offset) (p : Position) :
    sectionAt? others p = sectionAt? sections p :=
  Search.findIndex?_congr Placed.offset p h .greatestLowerBound

/-! ## Answers of sections -/

/-- The section to which a look-up goes answers for the map, and its errors are named for it. -/
theorem originalPositionFor_of_sectionAt? (hat : sectionAt? sections p = some i)
    (hget : sections[i]? = some s) (file : Option String) (merged : Except Error View)
    (bias : Bias) : (LoadedMap.index file sections merged).originalPositionFor p bias =
      (s.map.originalPositionFor (s.offset.toLocal p) bias).mapError (.inSection i) := by
  rw [originalPositionFor, hat]
  dsimp only
  rw [originalPositionIn_eq, hget]
  dsimp only
  cases s.map.originalPositionFor (s.offset.toLocal p) bias <;> rfl

/-- **A look-up is handed to the section that covers the position.** At any depth of a map that can
be made, an index map finds nothing at a position before all of its sections, and at any other
position one section covers it. This section has the position in its own coordinates, without any of
the numbers wrapping around, and gives the answer or the error, whatever the other sections are. -/
theorem originalPositionFor_covers {m : LoadedMap} (hm : m.Reachable) {path : List Nat}
    {file : Option String} {merged : Except Error View}
    (hpath : m.descend? path = some (.index file sections merged)) (p : Position) (bias : Bias) :
    let inner := LoadedMap.index file sections merged
    ((∀ s ∈ sections, ¬ (compare s.offset p).isLE) → inner.originalPositionFor p bias = .ok {}) ∧
    ((∃ s ∈ sections, (compare s.offset p).isLE) → ∃ i s, Covers sections p i s) ∧
    ∀ i s, Covers sections p i s →
      s.offset.HasLocal p ∧
      (s.offset.toLocal p).line.toNat = p.line.toNat - s.offset.line.toNat + 1 ∧
      (s.offset.toLocal p).column.toNat =
        (if p.line = s.offset.line then p.column.toNat - s.offset.column.toNat
          else p.column.toNat) ∧
      inner.originalPositionFor p bias =
        (s.map.originalPositionFor (s.offset.toLocal p) bias).mapError (.inSection i) ∧
      ∀ (others : List (Placed LoadedMap)) (file' : Option String) (merged' : Except Error View),
        others.map Placed.offset = sections.map Placed.offset → others[i]? = some s →
        (LoadedMap.index file' others merged').originalPositionFor p bias =
          inner.originalPositionFor p bias := by
  intro inner
  cases hm.ordered.descend hpath with
  | index hlines horder _ =>
  refine ⟨?_, ?_, ?_⟩
  · intro h
    rw [originalPositionFor, (sectionAt?_eq_none_iff horder).mpr h]
  · rintro ⟨s, hs, hle⟩
    cases hat : sectionAt? sections p with
    | none => exact absurd hle ((sectionAt?_eq_none_iff horder).mp hat s hs)
    | some i => exact ⟨i, covers_of_sectionAt? horder hat⟩
  · intro i s hcovers
    have hlocal : s.offset.HasLocal p :=
      Position.hasLocal_of_isLE (hlines s (List.mem_of_getElem? hcovers.get)) hcovers.starts
    have hat := sectionAt?_of_covers horder hcovers
    have hanswer := originalPositionFor_of_sectionAt? hat hcovers.get file merged bias
    refine ⟨hlocal, hlocal.toNat_line, Position.toNat_column_toLocal _ _, hanswer, ?_⟩
    intro others file' merged' hoffsets hget
    have hat' : sectionAt? others p = some i := (sectionAt?_congr hoffsets p).trans hat
    rw [originalPositionFor_of_sectionAt? hat' hget, hanswer]

/-- In an index map inside another one, a look-up on the last line there is, which is the first line
of a section that cannot be read, and one on line zero. -/
theorem originalPositionFor_covers_last :
    let good : Record :=
      { version := some 3, sources := some [some "a.js"], mappings := some "AAAA" }
    let broken : Record := { version := some 3, mappings := some "A!" }
    let inner : Record :=
      { version := some 3
        sections := some [{ offset := ⟨0, 2⟩, map := some good },
          { offset := ⟨4294967294, 1⟩, map := some broken }] }
    let outer : Record :=
      { version := some 3
        sections := some
          [{ offset := ⟨0, 5⟩, map := some good }, { offset := ⟨0, 9⟩, map := some inner }] }
    let p : Position := ⟨Coordinate.largest, 3⟩
    ∃ m sections s, ofRecord outer = .ok m ∧ m.descend? [1] = some (ofSections none sections) ∧
      Covers sections p 1 s ∧ s.offset.toLocal p = ⟨1, 2⟩ ∧
      (ofSections none sections).originalPositionFor p .greatestLowerBound =
        .error (.inSection 1 (.invalidDigit '!')) ∧
      (ofSections none sections).originalPositionFor ⟨0, 7⟩ .leastUpperBound = .ok {} := by
  intro good broken inner outer p
  obtain ⟨f, hf⟩ : ∃ f, ofRecord good = .ok (.flat f) := ⟨_, rfl⟩
  obtain ⟨g, hg⟩ : ∃ g, ofRecord broken = .ok (.flat g) := ⟨_, rfl⟩
  let sections : List (Placed LoadedMap) :=
    [{ offset := ⟨1, 2⟩, map := .flat f }, { offset := ⟨Coordinate.largest, 1⟩, map := .flat g }]
  obtain ⟨m, hm, hpath⟩ : ∃ m, ofRecord outer = .ok m ∧
      m.descend? [1] = some (ofSections none sections) := by
    cases hf
    cases hg
    exact ⟨_, rfl, rfl⟩
  have hbroken : (ofRecord broken).bind
      (fun m => m.originalPositionFor ⟨1, 2⟩ .greatestLowerBound) = .error (.invalidDigit '!') := by
    cbv
  rw [hg] at hbroken
  have hcovers : Covers sections p 1 { offset := ⟨Coordinate.largest, 1⟩, map := .flat g } := by
    refine ⟨rfl, ?_, ?_, ?_⟩
    · show (compare (⟨Coordinate.largest, 1⟩ : Position) ⟨Coordinate.largest, 3⟩).isLE
      decide
    · intro t ht _
      rcases List.mem_pair.mp ht with rfl | rfl
      · show (compare (⟨1, 2⟩ : Position) ⟨Coordinate.largest, 1⟩).isLE
        decide
      · show (compare (⟨Coordinate.largest, 1⟩ : Position) ⟨Coordinate.largest, 1⟩).isLE
        decide
    · intro j t hj ht
      obtain rfl : j = 0 := by omega
      cases ht
      show (⟨1, 2⟩ : Position) ≠ ⟨Coordinate.largest, 1⟩
      decide
  have hm' : m.Reachable := .ofRecord hm
  obtain ⟨-, -, hhanded⟩ := originalPositionFor_covers hm' hpath p .greatestLowerBound
  obtain ⟨-, -, -, hanswer, -⟩ := hhanded 1 _ hcovers
  obtain ⟨hempty, -, -⟩ := originalPositionFor_covers hm' hpath ⟨0, 7⟩ .leastUpperBound
  have hlocal : (⟨Coordinate.largest, 1⟩ : Position).toLocal p = ⟨1, 2⟩ := by decide
  refine ⟨m, sections, _, hm, hpath, hcovers, hlocal, ?_, hempty ?_⟩
  · refine hanswer.trans ?_
    dsimp only
    rw [hlocal]
    exact congrArg (Except.mapError (Error.inSection 1)) hbroken
  · intro s hs
    rcases List.mem_pair.mp hs with rfl | rfl
    · show ¬ (compare (⟨1, 2⟩ : Position) ⟨0, 7⟩).isLE
      decide
    · show ¬ (compare (⟨Coordinate.largest, 1⟩ : Position) ⟨0, 7⟩).isLE
      decide

end LoadedMap

end SourceMap

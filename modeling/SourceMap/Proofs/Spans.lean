import Mathlib
import SourceMap.Proofs.Assembly
import SourceMap.Proofs.Nearest

/-!
# Ends of spans

Computing spans ends the span of an entry in the column before the next entry on its line, and where
there is none the span has no bound (`Entry.spansTo_of_mem_withSpans`). Shifting a span with its
section loses nothing (`SpansTo.shift`).
-/

set_option autoImplicit false

namespace SourceMap

/-! ## Positions on one line -/

namespace Position

/-- Whether a position has another one behind it on its line. -/
def FollowedBy (p q : Position) : Prop :=
  q.line = p.line ∧ p.column < q.column

variable {offset p p' q g g' : Position}

theorem followedBy_irrefl (p : Position) : ¬ p.FollowedBy p := fun h => UInt32.lt_irrefl _ h.2

/-- Of two positions in order the second does not have the first behind it. -/
theorem not_followedBy_of_isLE (h : (compare p q).isLE) : ¬ q.FollowedBy p := by
  rintro ⟨hline, hcolumn⟩
  rw [isLE_iff, hline] at h
  rw [UInt32.lt_iff_toNat_lt] at hcolumn
  omega

/-- Positions of a section are on one line just when they are in the file. -/
theorem ShiftedTo.line_eq_iff (h : ShiftedTo offset p g) (h' : ShiftedTo offset p' g') :
    g'.line = g.line ↔ p'.line = p.line := by
  have hline := h.1
  have hline' := h'.1
  rw [← UInt32.toNat_inj, ← UInt32.toNat_inj]
  omega

/-- On one line all columns are shifted alike. -/
theorem ShiftedTo.column_le_iff (h : ShiftedTo offset p g) (h' : ShiftedTo offset p' g')
    (hline : p'.line = p.line) : g.column ≤ g'.column ↔ p.column ≤ p'.column := by
  have hcolumn := h.2
  have hcolumn' := h'.2
  rw [hline] at hcolumn'
  rw [UInt32.le_iff_toNat_le, UInt32.le_iff_toNat_le]
  omega

theorem ShiftedTo.followedBy_iff (h : ShiftedTo offset p g) (h' : ShiftedTo offset p' g') :
    g.FollowedBy g' ↔ p.FollowedBy p' := by
  rw [FollowedBy, FollowedBy, h.line_eq_iff h']
  refine and_congr_right fun hline => ?_
  rw [← UInt32.not_le, ← UInt32.not_le, h'.column_le_iff h hline.symm]

/-! ## Where a span ends -/

/-- Whether the span of a position among others ends in a column: in the one before the next
position on the line, or without a bound where none follows. -/
inductive SpansTo (ps : List Position) (p : Position) : UInt32 → Prop
  | unbounded : (∀ q ∈ ps, ¬ p.FollowedBy q) → SpansTo ps p Coordinate.unbounded
  | next {q : Position} {last : UInt32} : q ∈ ps → p.FollowedBy q →
      (∀ q' ∈ ps, p.FollowedBy q' → q.column ≤ q'.column) →
      q.column.toNat = last.toNat + 1 → SpansTo ps p last

variable {ps qs : List Position} {last last' : UInt32}

/-- No column is behind the unbounded one. -/
theorem ne_unbounded_of_lt {last column : UInt32} (h : column.toNat = last.toNat + 1) :
    last ≠ Coordinate.unbounded := by
  rintro rfl
  have hlt := column.toNat_lt_size
  have hunbounded : Coordinate.unbounded.toNat = UInt32.size - 1 := rfl
  omega

/-- Just the spans without a following position have no bound. -/
theorem SpansTo.eq_unbounded_iff (h : SpansTo ps p last) :
    last = Coordinate.unbounded ↔ ∀ q ∈ ps, ¬ p.FollowedBy q := by
  cases h with
  | unbounded hnone => exact iff_of_true rfl hnone
  | next hq hfollows _ hlast =>
      exact iff_of_false (ne_unbounded_of_lt hlast) fun hnone => hnone _ hq hfollows

/-- A span has one end. -/
theorem SpansTo.unique (h : SpansTo ps p last) (h' : SpansTo ps p last') : last = last' := by
  cases h with
  | unbounded hnone => exact (h'.eq_unbounded_iff.mpr hnone).symm
  | @next q _ hq hfollows hfirst hlast =>
      cases h' with
      | unbounded hnone => exact absurd hfollows (hnone q hq)
      | @next q' _ hq' hfollows' hfirst' hlast' =>
          have hle := hfirst q' hq' hfollows'
          have hge := hfirst' q hq hfollows
          rw [UInt32.le_iff_toNat_le] at hle hge
          rw [← UInt32.toNat_inj]
          omega

/-- Positions that do not follow, or not before all others, have no part in where a span ends. -/
theorem SpansTo.mono (h : SpansTo ps p last) (hsub : ∀ q ∈ ps, q ∈ qs)
    (hfollows : ∀ q ∈ qs, p.FollowedBy q → ∃ q' ∈ ps, p.FollowedBy q' ∧ q'.column ≤ q.column) :
    SpansTo qs p last := by
  cases h with
  | unbounded hnone =>
      refine .unbounded fun q hq hpq => ?_
      obtain ⟨q', hq', hpq', -⟩ := hfollows q hq hpq
      exact hnone q' hq' hpq'
  | next hq hpq hfirst hlast =>
      refine .next (hsub _ hq) hpq ?_ hlast
      intro q' hq' hpq'
      obtain ⟨q'', hq'', hpq'', hle⟩ := hfollows q' hq' hpq'
      exact UInt32.le_trans (hfirst q'' hq'' hpq'') hle

/-- **A span that is shifted with its section still ends where it should.** -/
theorem SpansTo.shift {gs : List Position} (h : SpansTo ps p last)
    (hshift : List.Forall₂ (ShiftedTo offset) ps gs) (hp : ShiftedTo offset p g) :
    SpansTo gs g (if last = Coordinate.unbounded then last
      else (offset.shiftColumn? p.line last).getD Coordinate.unbounded) := by
  cases h with
  | unbounded hnone =>
      rw [if_pos rfl]
      refine .unbounded fun g' hg' hgg' => ?_
      obtain ⟨p', hp', hpg'⟩ := exists_of_forall₂_right hshift g' hg'
      exact hnone p' hp' ((hp.followedBy_iff hpg').mp hgg')
  | @next q last hq hpq hfirst hlast =>
      obtain ⟨g₁, hg₁, hqg₁⟩ := exists_of_forall₂ hshift q hq
      -- the column before the next position is shifted like the position itself
      obtain ⟨w, hw, hnext⟩ : ∃ w, offset.shiftColumn? p.line last = some w ∧
          g₁.column.toNat = w.toNat + 1 := by
        have hcolumn := hqg₁.2
        rw [hpq.1] at hcolumn
        have hlt := g₁.column.toNat_lt
        refine ⟨UInt32.ofNat (g₁.column.toNat - 1), shiftColumn?_eq_some_iff.mpr ?_, ?_⟩
        · rw [UInt32.toNat_ofNat']
          omega
        · rw [UInt32.toNat_ofNat']
          omega
      rw [if_neg (ne_unbounded_of_lt hlast), hw, Option.getD_some]
      refine .next hg₁ ((hp.followedBy_iff hqg₁).mpr hpq) ?_ hnext
      intro g' hg' hgg'
      obtain ⟨p', hp', hpg'⟩ := exists_of_forall₂_right hshift g' hg'
      have hpp' := (hp.followedBy_iff hpg').mp hgg'
      exact (hqg₁.column_le_iff hpg' (hpp'.1.trans hpq.1.symm)).mpr (hfirst p' hp' hpp')

/-- A position is not there more often than what it is shifted to. -/
theorem count_le_of_shiftedTo {gs : List Position}
    (hshift : List.Forall₂ (ShiftedTo offset) ps gs) (hp : ShiftedTo offset p g) :
    ps.count p ≤ gs.count g := by
  induction hshift with
  | nil => exact Nat.le_refl _
  | @cons q g' _ _ hqg' _ ih =>
      rw [List.count_cons, List.count_cons]
      by_cases hq : q = p
      · have hg : g' = g := by
          rw [hq] at hqg'
          exact hqg'.unique hp
        simpa [hq, hg] using ih
      · have hfalse : (q == p) = false := beq_false_of_ne hq
        rw [hfalse]
        simp only [Bool.false_eq_true, if_false]
        omega

end Position

open Position (SpansTo)

/-! ## Tables with spans -/

namespace Entry

/-- With its span an entry is at its place. -/
theorem exists_of_mem_withSpans {es : List Entry} {e : Entry} (h : e ∈ withSpans es) :
    ∃ e₀ ∈ es, e₀.generated = e.generated := by
  obtain ⟨i, hi⟩ := List.getElem?_of_mem h
  rw [getElem?_withSpans] at hi
  obtain ⟨e₀, he₀, rfl⟩ := Option.map_eq_some_iff.mp hi
  exact ⟨e₀, List.mem_of_getElem? he₀, rfl⟩

/-- The span of the first of sorted entries ends before the second, if this is not at the same
place. -/
theorem spansTo_cons {e : Entry} {es : List Entry}
    (hsorted : (e :: es).Pairwise fun a b => (compare a.generated b.generated).isLE)
    (hne : ∀ e', es.head? = some e' → e'.generated ≠ e.generated) :
    ∃ last, (e.spanTo es.head?).lastColumn = some last ∧
      SpansTo ((e :: es).map Entry.generated) e.generated last := by
  obtain ⟨hfirst, hsorted'⟩ := List.pairwise_cons.mp hsorted
  refine ⟨_, rfl, ?_⟩
  cases es with
  | nil =>
      refine .unbounded fun q hq => ?_
      rw [List.mem_singleton.mp hq]
      exact Position.followedBy_irrefl _
  | cons e' es =>
      have hle := Position.isLE_iff.mp (hfirst e' List.mem_cons_self)
      -- whatever follows the first entry is not before the second
      have hafter : ∀ q ∈ (e :: e' :: es).map Entry.generated, e.generated.FollowedBy q →
          (compare e'.generated q).isLE := by
        intro q hq hfollows
        obtain ⟨e'', he'', rfl⟩ := List.mem_map.mp hq
        rcases List.mem_cons.mp he'' with rfl | he''
        · exact absurd hfollows (Position.followedBy_irrefl _)
        · rcases List.mem_cons.mp he'' with rfl | he''
          · exact Position.isLE_iff.mpr (Or.inr ⟨rfl, Nat.le_refl _⟩)
          · exact (List.pairwise_cons.mp hsorted').1 e'' he''
      by_cases hline : e'.generated.line = e.generated.line
      · have hcolumn : e'.generated.column ≠ e.generated.column := by
          intro hcolumn
          refine hne e' rfl ?_
          obtain ⟨⟨line, column⟩, origin, last⟩ := e
          obtain ⟨⟨line', column'⟩, origin', last'⟩ := e'
          exact congrArg₂ Position.mk hline hcolumn
        have hlt : e.generated.column.toNat < e'.generated.column.toNat := by
          rw [← UInt32.toNat_inj] at hline
          rw [Ne, ← UInt32.toNat_inj] at hcolumn
          omega
        simp only [List.head?_cons, if_pos hline]
        refine .next (q := e'.generated) (by simp) ⟨hline, UInt32.lt_iff_toNat_lt.mpr hlt⟩ ?_ ?_
        · intro q hq hfollows
          have hle' := Position.isLE_iff.mp (hafter q hq hfollows)
          rw [hfollows.1, hline] at hle'
          rw [UInt32.le_iff_toNat_le]
          omega
        · have hone : (1 : UInt32).toNat = 1 := rfl
          rw [Coordinate.toNat_monus, hone]
          omega
      · simp only [List.head?_cons, if_neg hline]
        refine .unbounded fun q hq hfollows => ?_
        have hle' := Position.isLE_iff.mp (hafter q hq hfollows)
        rw [hfollows.1] at hle'
        rw [← UInt32.toNat_inj] at hline
        omega

/-- **The spans of a table end where they should**, except at positions that it has more than
once. -/
theorem spansTo_of_mem_withSpans {es : List Entry}
    (hsorted : es.Pairwise fun a b => (compare a.generated b.generated).isLE) {e : Entry}
    (he : e ∈ withSpans es) (halone : (es.map Entry.generated).count e.generated ≤ 1) :
    ∃ last, e.lastColumn = some last ∧ SpansTo (es.map Entry.generated) e.generated last := by
  induction es with
  | nil => cases he
  | cons e₁ es ih =>
      obtain ⟨hfirst, hsorted'⟩ := List.pairwise_cons.mp hsorted
      rw [withSpans_cons] at he
      rcases List.mem_cons.mp he with rfl | he
      · refine spansTo_cons hsorted ?_
        intro e' he' hsame
        have hmem : e₁.generated ∈ es.map Entry.generated :=
          List.mem_map.mpr ⟨e', List.mem_of_head? he', hsame⟩
        have hpos := List.count_pos_iff.mpr hmem
        have hcount : (e₁.generated :: es.map Entry.generated).count e₁.generated ≤ 1 := halone
        rw [List.count_cons_self] at hcount
        omega
      · have halone' : (es.map Entry.generated).count e.generated ≤ 1 :=
          Nat.le_trans List.count_le_count_cons halone
        obtain ⟨last, hlast, hspans⟩ := ih hsorted' he halone'
        refine ⟨last, hlast, hspans.mono (fun q hq => List.mem_cons_of_mem _ hq) ?_⟩
        intro q hq hfollows
        rcases List.mem_cons.mp hq with rfl | hq
        · obtain ⟨e₀, he₀, hsame⟩ := exists_of_mem_withSpans he
          have hle := hfirst e₀ he₀
          rw [hsame] at hle
          exact absurd hfollows (Position.not_followedBy_of_isLE hle)
        · exact ⟨q, hq, hfollows, UInt32.le_refl _⟩

end Entry

namespace View

variable {v : View} {source : String}

theorem map_generated_mappings (v : View) :
    (v.mappings .generated).map Mapping.generated =
      v.table.generated.toList.map Entry.generated := by
  rw [mappings, List.map_map]
  rfl

/-- The spans of a view end where they should, except at positions that it has more than once. -/
theorem exists_spansTo (h : v.table.InOrder) {e : Entry}
    (he : e ∈ v.withSpans.table.generated.toList)
    (halone : ((v.mappings .generated).map Mapping.generated).count e.generated ≤ 1) :
    ∃ last, e.lastColumn = some last ∧
      SpansTo ((v.mappings .generated).map Mapping.generated) e.generated last := by
  rw [map_generated_mappings] at halone ⊢
  exact Entry.spansTo_of_mem_withSpans h he halone

/-- An answer that is not nothing is the position of an entry. -/
theorem exists_entry_of_isAt {p g : Position} {bias : Bias}
    (h : (v.generatedPositionFor source p bias).IsAt g) : ∃ e ∈ v.table.generated.toList,
      e.generated = g ∧ v.generatedPositionFor source p bias = positionOf e := by
  have hnothing : ¬ GeneratedPosition.IsAt {} g := by
    rintro ⟨⟨⟩, -⟩
  obtain ⟨e, he, hanswer⟩ : ∃ e ∈ v.table.generated.toList,
      v.generatedPositionFor source p bias = positionOf e := by
    unfold generatedPositionFor at h ⊢
    cases hslot : v.sourceSlot? source with
    | none =>
        rw [hslot] at h
        exact absurd h hnothing
    | some slot =>
        simp only [hslot] at h ⊢
        cases he : (v.table.findOriginal? { source := slot, position := p } bias).bind
            (v.table.original[·]?) with
        | none =>
            rw [he] at h
            exact absurd h hnothing
        | some e =>
            simp only [he] at h ⊢
            split_ifs at h ⊢
            · obtain ⟨i, -, hi⟩ := Option.bind_eq_some_iff.mp he
              have hmem := MappingTable.mem_original_iff.mp (Array.mem_of_getElem? hi)
              exact ⟨e, hmem.1, rfl⟩
            · exact absurd h hnothing
  rw [hanswer] at h
  obtain ⟨⟨line, column⟩, origin, last⟩ := e
  obtain ⟨line', column'⟩ := g
  obtain ⟨hline, hcolumn⟩ := h
  cases hline
  cases hcolumn
  exact ⟨_, he, rfl, hanswer⟩

/-- What is found among all is the position of an entry. -/
theorem exists_entry_of_mem {line : UInt32} {column : Option UInt32} {g : GeneratedPosition}
    (h : g ∈ v.allGeneratedPositionsFor source line column) :
    ∃ e ∈ v.table.generated.toList, g = positionOf e := by
  unfold allGeneratedPositionsFor at h
  split at h
  · cases h
  · dsimp only at h
    split at h
    · cases h
    · split at h
      · cases h
      · split at h
        · obtain ⟨e, he, rfl⟩ := List.mem_map.mp h
          have hmem := List.mem_of_mem_drop ((List.takeWhile_subset _) he)
          exact ⟨e, (MappingTable.mem_original_iff.mp (Array.mem_toList_iff.mp hmem)).1, rfl⟩
        · cases h

end View

end SourceMap

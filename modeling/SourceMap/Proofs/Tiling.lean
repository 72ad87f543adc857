import Mathlib
import SourceMap.Proofs.Canonical
import SourceMap.Proofs.SameAnswers
import SourceMap.Proofs.Spans

/-!
# Tilings

With their spans the entries of a line tile it: from the first of them on every column is in the
span of the last entry of one generated column, and in no span of another column
(`Entry.tiles_withSpans`). Where several entries share a column all but the last of them have a span
that ends before the next column with a different value, or in column 0, where there is no column
before.

Computing the spans of a flat map gives it such a tiling, changes nothing else, and makes no
difference when it is done again (`LoadedMap.computeSpans_tiles`).
-/

set_option autoImplicit false

namespace SourceMap

open Search (Within)

/-! ## Tiles -/

namespace Entry

/-- Whether a column is in the span of an entry. -/
def Spans (e : Entry) (column : UInt32) : Prop :=
  e.generated.column ≤ column ∧ ∃ last, e.lastColumn = some last ∧ column ≤ last

/-- Whether an entry is the tile that a position is on: it is the last of those in the greatest
column of the line that is not behind the position, spans the position, and no entry in another
column of the line does. -/
structure TileAt (es : List Entry) (p : Position) (e : Entry) : Prop where
  line : e.generated.line = p.line
  le : e.generated.column ≤ p.column
  greatest : ∀ c ∈ es, c.generated.line = p.line → c.generated.column ≤ p.column →
    c.generated.column ≤ e.generated.column
  last : (es.filter fun c => c.generated == e.generated).getLast? = some e
  spans : e.Spans p.column
  apart : ∀ c ∈ es, c.generated.line = p.line → c.generated.column ≠ e.generated.column →
    ¬ c.Spans p.column

theorem TileAt.mem {es : List Entry} {p : Position} {e : Entry} (h : TileAt es p e) : e ∈ es :=
  List.mem_of_mem_filter (List.mem_of_getLast? h.last)

/-- Whether entries in generated order have spans that tile their lines, those of the last entries
of lines without a bound and no others. -/
structure Tiles (es : List Entry) : Prop where
  known : ∀ e ∈ es, e.lastColumn.isSome
  exists_tile : ∀ p : Position,
    (∃ c ∈ es, c.generated.line = p.line ∧ c.generated.column ≤ p.column) → ∃ e, TileAt es p e
  unbounded_iff : ∀ i e, es[i]? = some e → (e.lastColumn = some Coordinate.unbounded ↔
    ∀ c ∈ es.drop (i + 1), c.generated.line ≠ e.generated.line)

/-! ## Ends of spans -/

theorem lastColumn_spanTo {e n : Entry} (h : n.generated.line = e.generated.line) :
    (e.spanTo (some n)).lastColumn = some (Coordinate.monus n.generated.column 1) := by
  simp only [spanTo, if_pos h]

theorem lastColumn_spanTo_of_ne {e n : Entry} (h : n.generated.line ≠ e.generated.line) :
    (e.spanTo (some n)).lastColumn = some Coordinate.unbounded := by
  simp only [spanTo, if_neg h]

/-- A column before another one is not the unbounded one. -/
theorem toNat_monus_one_lt (column : UInt32) :
    (Coordinate.monus column 1).toNat < UInt32.size - 1 := by
  have hlt := column.toNat_lt_size
  have hsize := Coordinate.size_eq
  have hone : (1 : UInt32).toNat = 1 := rfl
  rw [Coordinate.toNat_monus, hone]
  omega

theorem le_unbounded (column : UInt32) : column ≤ Coordinate.unbounded := by
  have hlt := column.toNat_lt_size
  have hunbounded : Coordinate.unbounded.toNat = UInt32.size - 1 := rfl
  rw [UInt32.le_iff_toNat_le]
  omega

variable {e : Entry} {es : List Entry}

/-- The entry after the first one of sorted entries is between it and all others. -/
theorem isLE_head? (hsorted : (e :: es).Pairwise fun a b => (compare a.generated b.generated).isLE)
    {n : Entry} (hn : es.head? = some n) : (compare e.generated n.generated).isLE ∧
      ∀ c ∈ es, (compare n.generated c.generated).isLE := by
  obtain ⟨hfirst, hsorted'⟩ := List.pairwise_cons.mp hsorted
  obtain ⟨es', rfl⟩ : ∃ es', es = n :: es' := List.head?_eq_some_iff.mp hn
  refine ⟨hfirst n List.mem_cons_self, fun c hc => ?_⟩
  rcases List.mem_cons.mp hc with rfl | hc
  · exact Position.isLE_iff.mpr (Or.inr ⟨rfl, Nat.le_refl _⟩)
  · exact (List.pairwise_cons.mp hsorted').1 c hc

/-- With their spans entries are at the same positions. -/
theorem map_generated_withSpans (es : List Entry) :
    (withSpans es).map Entry.generated = es.map Entry.generated := by
  have h := congrArg (List.map Entry.generated) (map_bare_withSpans es)
  rwa [List.map_map, List.map_map] at h

theorem mem_map_generated {c : Entry} (hc : c ∈ withSpans es) :
    c.generated ∈ es.map Entry.generated := by
  rw [← map_generated_withSpans]
  exact List.mem_map_of_mem hc

/-- The first entry is the tile of what comes before all others of its line. -/
theorem tileAt_head {p : Position} (hline : e.generated.line = p.line)
    (hle : e.generated.column ≤ p.column)
    (hnone : ∀ q ∈ es.map Entry.generated, q.line = p.line → ¬ q.column ≤ p.column) :
    TileAt (withSpans (e :: es)) p (e.spanTo es.head?) := by
  have hrest {c : Entry} (hc : c ∈ withSpans es) (hcline : c.generated.line = p.line) :
      ¬ c.generated.column ≤ p.column := hnone _ (mem_map_generated hc) hcline
  rw [withSpans_cons]
  refine ⟨hline, hle, ?_, ?_, ⟨hle, ?_⟩, ?_⟩
  · intro c hc hcline hcle
    rcases List.mem_cons.mp hc with rfl | hc
    · exact UInt32.le_refl _
    · exact absurd hcle (hrest hc hcline)
  · have hempty : (withSpans es).filter
        (fun c => c.generated == (e.spanTo es.head?).generated) = [] := by
      refine List.filter_eq_nil_iff.mpr fun c hc hsame => ?_
      have hposition : c.generated = e.generated := beq_iff_eq.mp hsame
      exact hrest hc (hposition ▸ hline) (hposition ▸ hle)
    rw [List.filter_cons, hempty, if_pos (beq_self_eq_true _)]
    rfl
  · cases hn : es.head? with
    | none => exact ⟨_, rfl, le_unbounded _⟩
    | some n =>
        by_cases hsame : n.generated.line = e.generated.line
        · have hmem : n.generated ∈ es.map Entry.generated :=
            List.mem_map_of_mem (List.mem_of_head? hn)
          have hlt := UInt32.not_le.mp (hnone _ hmem (hsame.trans hline))
          refine ⟨_, lastColumn_spanTo hsame, ?_⟩
          have hone : (1 : UInt32).toNat = 1 := rfl
          rw [UInt32.lt_iff_toNat_lt] at hlt
          rw [UInt32.le_iff_toNat_le, Coordinate.toNat_monus, hone]
          omega
        · exact ⟨_, lastColumn_spanTo_of_ne hsame, le_unbounded _⟩
  · intro c hc hcline hne hspans
    rcases List.mem_cons.mp hc with rfl | hc
    · exact hne rfl
    · exact hrest hc hcline hspans.1

/-- **A tile stays one when an entry comes before all others.** The span of this entry ends before
the column of the tile, except in the column of the tile itself. -/
theorem TileAt.cons
    (hsorted : (e :: es).Pairwise fun a b => (compare a.generated b.generated).isLE) {p : Position}
    {c : Entry} (h : TileAt (withSpans es) p c) : TileAt (withSpans (e :: es)) p c := by
  obtain ⟨c₀, hc₀, hposition⟩ := exists_of_mem_withSpans h.mem
  obtain ⟨n, hn⟩ : ∃ n, es.head? = some n := by
    cases es with
    | nil => cases hc₀
    | cons n es => exact ⟨n, rfl⟩
  obtain ⟨hen, hrest⟩ := isLE_head? hsorted hn
  have hnc := hrest c₀ hc₀
  rw [hposition] at hnc
  rw [Position.isLE_iff] at hen hnc
  have hcline := congrArg UInt32.toNat h.line
  -- on the line of the tile the first entry and the next one are not behind it
  have hbefore (hline : e.generated.line = p.line) : n.generated.line = e.generated.line ∧
      e.generated.column ≤ c.generated.column ∧ n.generated.column ≤ c.generated.column := by
    have heline := congrArg UInt32.toNat hline
    rw [← UInt32.toNat_inj, UInt32.le_iff_toNat_le, UInt32.le_iff_toNat_le]
    omega
  rw [withSpans_cons]
  refine ⟨h.line, h.le, ?_, ?_, h.spans, ?_⟩
  · intro a ha haline hale
    rcases List.mem_cons.mp ha with rfl | ha
    · exact (hbefore haline).2.1
    · exact h.greatest a ha haline hale
  · by_cases hsame : ((e.spanTo es.head?).generated == c.generated) = true
    · rw [List.filter_cons, if_pos hsame, List.getLast?_cons, h.last]
      rfl
    · rw [List.filter_cons, if_neg hsame]
      exact h.last
  · intro a ha haline hne hspans
    rcases List.mem_cons.mp ha with rfl | ha
    · obtain ⟨hnline, hecolumn, hncolumn⟩ := hbefore haline
      obtain ⟨-, last, hlast, hle⟩ := hspans
      rw [hn, lastColumn_spanTo hnline] at hlast
      obtain rfl := Option.some.inj hlast
      have hone : (1 : UInt32).toNat = 1 := rfl
      have hcle := h.le
      have hne' : e.generated.column ≠ c.generated.column := hne
      rw [UInt32.le_iff_toNat_le] at hecolumn hncolumn hcle
      rw [UInt32.le_iff_toNat_le, Coordinate.toNat_monus, hone] at hle
      rw [Ne, ← UInt32.toNat_inj] at hne'
      omega
    · exact h.apart a ha haline hne hspans

/-- **Spans tile lines.** -/
theorem exists_tileAt {p : Position}
    (hsorted : es.Pairwise fun a b => (compare a.generated b.generated).isLE)
    (h : ∃ q ∈ es.map Entry.generated, q.line = p.line ∧ q.column ≤ p.column) :
    ∃ c, TileAt (withSpans es) p c := by
  induction es with
  | nil =>
      obtain ⟨q, hq, -⟩ := h
      cases hq
  | cons e es ih =>
      by_cases hrest : ∃ q ∈ es.map Entry.generated, q.line = p.line ∧ q.column ≤ p.column
      · obtain ⟨c, hc⟩ := ih (List.pairwise_cons.mp hsorted).2 hrest
        exact ⟨c, hc.cons hsorted⟩
      · -- no other entry is before the position on its line, so the first one is
        have hnone : ∀ q ∈ es.map Entry.generated, q.line = p.line → ¬ q.column ≤ p.column :=
          fun q hq hline hle => hrest ⟨q, hq, hline, hle⟩
        obtain ⟨q, hq, hline, hle⟩ := h
        rcases List.mem_cons.mp hq with rfl | hq
        · exact ⟨_, tileAt_head hline hle hnone⟩
        · exact absurd hle (hnone q hq hline)

/-- **Just the last entries of the lines have spans without a bound.** -/
theorem unbounded_withSpans_iff
    (hsorted : es.Pairwise fun a b => (compare a.generated b.generated).isLE) {i : Nat}
    (hi : (withSpans es)[i]? = some e) : e.lastColumn = some Coordinate.unbounded ↔
      ∀ c ∈ (withSpans es).drop (i + 1), c.generated.line ≠ e.generated.line := by
  rw [getElem?_withSpans, Option.map_eq_some_iff] at hi
  obtain ⟨e₀, he₀, rfl⟩ := hi
  obtain ⟨hbound, rfl⟩ := List.getElem?_eq_some_iff.mp he₀
  have hpositions : ((withSpans es).drop (i + 1)).map Entry.generated =
      (es.drop (i + 1)).map Entry.generated := by
    rw [List.map_drop, List.map_drop, map_generated_withSpans]
  have hlines : (∀ c ∈ (withSpans es).drop (i + 1), c.generated.line ≠ es[i].generated.line) ↔
      ∀ q ∈ (es.drop (i + 1)).map Entry.generated, q.line ≠ es[i].generated.line := by
    rw [← hpositions, List.forall_mem_map]
  have hsorted' : (es[i] :: es.drop (i + 1)).Pairwise fun a b =>
      (compare a.generated b.generated).isLE := by
    rw [← List.drop_eq_getElem_cons hbound]
    exact hsorted.drop
  show (es[i].spanTo es[i + 1]?).lastColumn = _ ↔
    ∀ c ∈ (withSpans es).drop (i + 1), c.generated.line ≠ es[i].generated.line
  rw [hlines, ← List.head?_drop]
  generalize es.drop (i + 1) = after at hsorted' ⊢
  cases hn : after.head? with
  | none =>
      rw [List.head?_eq_none_iff.mp hn]
      exact iff_of_true rfl fun q hq => (List.not_mem_nil hq).elim
  | some n =>
      have hmem : n.generated ∈ after.map Entry.generated :=
        List.mem_map_of_mem (List.mem_of_head? hn)
      by_cases hsame : n.generated.line = es[i].generated.line
      · refine iff_of_false (fun hlast => ?_) fun hnone => hnone _ hmem hsame
        rw [lastColumn_spanTo hsame] at hlast
        have hlt := toNat_monus_one_lt n.generated.column
        rw [Option.some.inj hlast] at hlt
        exact Nat.lt_irrefl _ hlt
      · refine iff_of_true (lastColumn_spanTo_of_ne hsame) fun q hq hline => hsame ?_
        -- a later entry of the line would have the next entry between it and this one
        obtain ⟨c, hc, rfl⟩ := List.mem_map.mp hq
        obtain ⟨hen, hrest⟩ := isLE_head? hsorted' hn
        have hnc := hrest c hc
        have hline' := congrArg UInt32.toNat hline
        rw [Position.isLE_iff] at hen hnc
        rw [← UInt32.toNat_inj]
        omega

theorem isSome_lastColumn_of_mem_withSpans (h : e ∈ withSpans es) : e.lastColumn.isSome := by
  obtain ⟨i, hi⟩ := List.getElem?_of_mem h
  rw [getElem?_withSpans] at hi
  obtain ⟨e₀, -, rfl⟩ := Option.map_eq_some_iff.mp hi
  rfl

/-- **The entries of a table with spans tile their lines.** -/
theorem tiles_withSpans
    (hsorted : es.Pairwise fun a b => (compare a.generated b.generated).isLE) :
    Tiles (withSpans es) where
  known _ he := isSome_lastColumn_of_mem_withSpans he
  exists_tile := by
    rintro p ⟨c, hc, hline, hle⟩
    exact exists_tileAt hsorted ⟨_, mem_map_generated hc, hline, hle⟩
  unbounded_iff _ _ hi := unbounded_withSpans_iff hsorted hi

/-- Spans do not depend on those that there were before. -/
theorem withSpans_withSpans (es : List Entry) : withSpans (withSpans es) = withSpans es := by
  apply List.ext_getElem?
  intro i
  rw [getElem?_withSpans, getElem?_withSpans, getElem?_withSpans, Option.map_map]
  refine Option.map_congr fun e _ => ?_
  cases es[i + 1]? with
  | none => rfl
  | some n => rfl

end Entry

/-! ## Tables -/

namespace MappingTable

theorem withSpans_withSpans (t : MappingTable) : t.withSpans.withSpans = t.withSpans :=
  congrArg ofSorted (Entry.withSpans_withSpans t.generated.toList)

/-- **Spans change no index in original order.** -/
theorem originalIndices_withSpans (t : MappingTable) :
    t.withSpans.originalIndices = t.originalIndices := by
  have hentry (i : UInt32) : (t.withSpans.entryAt i).bare = (t.entryAt i).bare := by
    rw [entryAt, entryAt, getElem!_def, getElem!_def]
    rcases Entry.map_bare_eq_iff.mp (map_bare_getElem? t.map_bare_generated i.toNat) with
      ⟨hnone, hnone'⟩ | ⟨e, last, hentry, hentry'⟩
    · rw [hnone, hnone']
    · rw [hentry, hentry']
      rfl
  have hbare (es : List Entry) :
      ((es.map Entry.bare).zipIdx.filter fun x => x.1.origin.isSome).map
          (fun x => UInt32.ofNat x.2) =
        (es.zipIdx.filter fun x => x.1.origin.isSome).map fun x => UInt32.ofNat x.2 := by
    rw [List.zipIdx_map, List.filter_map, List.map_map]
    rfl
  have hplaced : t.withSpans.placedIndices = t.placedIndices := by
    rw [placedIndices, placedIndices, ← hbare, t.map_bare_generated, hbare]
  have horder : (fun i j => (Entry.originalOrder (t.withSpans.entryAt i)
      (t.withSpans.entryAt j)).isLE) =
      fun i j => (Entry.originalOrder (t.entryAt i) (t.entryAt j)).isLE := by
    funext i j
    show ((t.withSpans.entryAt i).bare.originalOrder (t.withSpans.entryAt j).bare).isLE =
      ((t.entryAt i).bare.originalOrder (t.entryAt j).bare).isLE
    rw [hentry, hentry]
  rw [originalIndices, originalIndices, hplaced, horder]

/-- **The look-up of a position finds an entry in the column of its tile.** -/
theorem findGenerated?_of_tileAt {t : MappingTable}
    (hsorted : t.generated.toList.Pairwise fun a b => (Entry.generatedOrder a b).isLE)
    {p : Position} {e : Entry} (h : Entry.TileAt t.generated.toList p e) :
    ∃ e', t.findGenerated? p .greatestLowerBound = some e' ∧ e'.generated = e.generated := by
  have hwithin : Within p .greatestLowerBound e.generated :=
    (Position.within_iff h.line).mpr (Std.isLE_compare.mpr h.le)
  rcases findGenerated?_cases hsorted p .greatestLowerBound with ⟨-, hnone⟩ | ⟨e', hfind, hnearest⟩
  · exact absurd hwithin (hnone e h.mem)
  have hnear := hnearest.nearest e h.mem hwithin
  have hline := Position.line_eq_of_within hnearest.within hnear h.line.symm
  have hle : e'.generated.column ≤ p.column :=
    Std.isLE_compare.mp ((Position.within_iff hline).mp hnearest.within)
  -- no column of the line is between that of the tile and the position
  have hback : Within e.generated .greatestLowerBound e'.generated :=
    (Position.within_iff (hline.trans h.line.symm)).mpr
      (Std.isLE_compare.mpr (h.greatest e' hnearest.mem hline hle))
  exact ⟨e', hfind, Std.LawfulEqCmp.eq_of_compare (hnear.antisymm hback)⟩

end MappingTable

/-! ## Flat maps -/

namespace LoadedMap

variable {f : FlatMap} {es : List Entry}

/-- **Computed spans tile the lines of a map, and nothing else changes.** Whatever the entries of a
flat map are, computing the spans succeeds. On a line the last entry in the greatest column up to a
position spans the position, and no entry in another column does; the look-up of the position finds
an entry in this column. Just the last entry of each line has a span without a bound. All else of
the entries stays, and so do both of their orders and the indices in original order. All answers are
the same but for last columns, and computing the spans once more changes nothing. -/
theorem computeSpans_tiles (h : f.table = .ok (.ofList es)) :
    let t := MappingTable.ofList es
    let t' := t.withSpans
    let m' := LoadedMap.flat { f with table := .ok t' }
    (LoadedMap.flat f).computeSpans = (.ok (), m') ∧ Entry.Tiles t'.generated.toList ∧
      (∀ p e, Entry.TileAt t'.generated.toList p e → ∃ e',
        t'.findGenerated? p .greatestLowerBound = some e' ∧ e'.generated = e.generated) ∧
      t'.generated.toList.map Entry.bare = t.generated.toList.map Entry.bare ∧
      t'.original.toList.map Entry.bare = t.original.toList.map Entry.bare ∧
      t'.originalIndices = t.originalIndices ∧
      SameAnswers GeneratedPosition.bare (.flat f) m' ∧ m'.computeSpans = (.ok (), m') := by
  intro t t' m'
  have hsorted := pairwise_mergeSort_isLE Entry.generatedOrder es
  have hspans : f.withSpans = { f with table := .ok t' } := by
    rw [FlatMap.withSpans, h, ok_map]
  refine ⟨?_, Entry.tiles_withSpans (Entry.pairwise_sortGenerated es), fun p e => ?_,
    t.map_bare_generated, t.map_bare_original, t.originalIndices_withSpans, ?_, ?_⟩
  · rw [computeSpans, h, ok_map, hspans]
  · exact MappingTable.findGenerated?_of_tileAt (Entry.pairwise_withSpans hsorted)
  · show SameAnswers GeneratedPosition.bare (.flat f) (.flat { f with table := .ok t' })
    rw [← hspans]
    exact sameAnswers_withSpans f
  · rw [computeSpans, FlatMap.withSpans, ok_map, ok_map, MappingTable.withSpans_withSpans]

/-- A column that two entries share, in front of which there is no other one, and a second line. -/
theorem computeSpans_tiles_shared :
    let es : List Entry :=
      [{ generated := ⟨1, 0⟩, origin := some { place := ⟨0, ⟨1, 0⟩⟩ } },
        { generated := ⟨1, 0⟩, origin := some { place := ⟨0, ⟨2, 0⟩⟩ } },
        { generated := ⟨1, 4⟩ }, { generated := ⟨2, 3⟩ }]
    let f : FlatMap :=
      { file := none, root := none, sources := .ofList ["a.js"] true, names := .empty
        contents := none, table := .ok (.ofList es) }
    let first : Entry :=
      { generated := ⟨1, 0⟩, origin := some { place := ⟨0, ⟨1, 0⟩⟩ }, lastColumn := some 0 }
    let second : Entry :=
      { generated := ⟨1, 0⟩, origin := some { place := ⟨0, ⟨2, 0⟩⟩ }, lastColumn := some 3 }
    let spanned : List Entry :=
      [first, second, { generated := ⟨1, 4⟩, lastColumn := some Coordinate.unbounded },
        { generated := ⟨2, 3⟩, lastColumn := some Coordinate.unbounded }]
    Entry.decodeAll "AAAA,AACA,I;G" { sources := 1, names := 0 } = .ok es ∧
      f.table = .ok (.ofList es) ∧
      (MappingTable.ofList es).withSpans.generated.toList = spanned ∧
      Entry.TileAt spanned ⟨1, 2⟩ second ∧
      (LoadedMap.flat f).computeSpans.2.computeSpans =
        (.ok (), (LoadedMap.flat f).computeSpans.2) := by
  intro es f first second spanned
  have htable : f.table = .ok (.ofList es) := rfl
  have hspanned : (MappingTable.ofList es).withSpans.generated.toList = spanned := by cbv
  obtain ⟨hspans, htiles, -, -, -, -, -, hagain⟩ := computeSpans_tiles htable
  rw [hspanned] at htiles
  obtain ⟨e, he⟩ := htiles.exists_tile ⟨1, 2⟩ ⟨first, List.mem_cons_self, rfl, by decide⟩
  have htile : e = second := by
    have hlast := he.last
    have hle := he.le
    have hline := he.line
    have hmem := he.mem
    simp only [spanned, List.mem_cons, List.not_mem_nil, or_false] at hmem
    rcases hmem with rfl | rfl | rfl | rfl
    · simp [spanned, first, second] at hlast
    · rfl
    · exact absurd hle (by decide)
    · exact absurd hline (by decide)
  refine ⟨by cbv, htable, hspanned, htile ▸ he, ?_⟩
  rw [hspans, hagain]

end LoadedMap

end SourceMap

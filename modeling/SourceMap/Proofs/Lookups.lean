import Mathlib
import SourceMap.Proofs.Assembly

/-!
# What look-ups mean

What a look-up in a flat map finds can be told from the entries of the map alone, in whatever
order they were given. For a generated position only the entries of its line count: of those in the
nearest column on the asked side the least by origin is taken (`originalPositionFor_meaning`). For
an original position only the entries of its source count: of those at the nearest original position
on the asked side the least by target is taken (`generatedPositionFor_meaning`).

The search for a generated position runs through all lines. Nothing is lost by looking at the line
of the result only afterwards, because what lies between two positions of one line is on this line.
-/

set_option autoImplicit false

namespace SourceMap

open Search (Within)

/-! ## Positions on one line -/

namespace Position

/-- Positions of one line are ordered by their columns. -/
theorem within_iff {a b : Position} (h : b.line = a.line) {bias : Bias} :
    Within a bias b ↔ Within a.column bias b.column := by
  have hcompare {c d : Position} (h : c.line = d.line) :
      compare c d = compare c.column d.column := by
    show (compare c.line d.line).then (compare c.column d.column) = compare c.column d.column
    rw [h, Std.ReflOrd.compare_self]
    rfl
  cases bias with
  | greatestLowerBound => rw [Within, Within, hcompare h]
  | leastUpperBound => rw [Within, Within, hcompare h.symm]

/-- What lies between two positions of one line is on this line. -/
theorem line_eq_of_within {a b c : Position} {bias : Bias} (hab : Within a bias b)
    (hbc : Within b bias c) (hac : a.line = c.line) : b.line = a.line := by
  apply UInt32.toNat_inj.mp
  have hline := congrArg UInt32.toNat hac
  cases bias with
  | greatestLowerBound =>
      have hba := isLE_iff.mp hab
      have hcb := isLE_iff.mp hbc
      omega
  | leastUpperBound =>
      have hba := isLE_iff.mp hab
      have hcb := isLE_iff.mp hbc
      omega

end Position

/-! ## Generated positions -/

/-- Whether an entry is the one that a generated position asks for: it is on the line of the
position in the nearest column on the side of the bias, and has the least origin of those in this
column. -/
structure NearestOnLine (es : List Entry) (p : Position) (bias : Bias) (e : Entry) : Prop where
  mem : e ∈ es
  line : e.generated.line = p.line
  within : Within p.column bias e.generated.column
  nearest : ∀ c ∈ es, c.generated.line = p.line → Within p.column bias c.generated.column →
    Within e.generated.column bias c.generated.column
  least : ∀ c ∈ es, c.generated = e.generated → (e.originOrder c).isLE

/-- What an entry of a flat map says of its generated position: nothing without a place, and else
the full name of the source, the line, the column and the name. -/
def FlatMap.originOf (f : FlatMap) (e : Entry) : OriginalPosition :=
  match e.place? with
  | none => {}
  | some place =>
    { source := some (SourceRoot.resolve f.root ((f.sources.toList[place.source]?).getD ""))
      line := some place.position.line
      column := some place.position.column
      name := e.name?.bind (f.names.toList[·]?) }

/-- What entries say of a generated position, when each of them says something. -/
inductive AnswersPosition (tells : Entry → OriginalPosition) (es : List Entry) (p : Position)
    (bias : Bias) : OriginalPosition → Prop
  | nothing : (∀ e ∈ es, e.generated.line = p.line → ¬ Within p.column bias e.generated.column) →
      AnswersPosition tells es p bias {}
  | entry {e : Entry} : NearestOnLine es p bias e → AnswersPosition tells es p bias (tells e)

/-- Entries given in another order say the same. -/
theorem AnswersPosition.perm {tells : Entry → OriginalPosition} {es es' : List Entry} {p : Position}
    {bias : Bias} {answer : OriginalPosition} (h : AnswersPosition tells es p bias answer)
    (hperm : es.Perm es') : AnswersPosition tells es' p bias answer := by
  cases h with
  | nothing hnone => exact .nothing fun e he => hnone e (hperm.mem_iff.mpr he)
  | entry h =>
      exact .entry
        { mem := hperm.mem_iff.mp h.mem
          line := h.line
          within := h.within
          nearest := fun c hc => h.nearest c (hperm.mem_iff.mpr hc)
          least := fun c hc => h.least c (hperm.mem_iff.mpr hc) }

/-- **A view in generated order answers what its entries say** of a generated position. -/
theorem View.answersPosition {v : View}
    (h : v.table.generated.toList.Pairwise fun a b => (Entry.generatedOrder a b).isLE)
    (p : Position) (bias : Bias) :
    AnswersPosition (fun e => (v.mapping e).answer) v.table.generated.toList p bias
      (v.originalPositionFor p bias) := by
  rw [originalPositionFor_eq]
  rcases MappingTable.findGenerated?_cases h p bias with ⟨hfind, hnone⟩ | ⟨e, hfind, hnearest⟩
  · rw [hfind]
    exact .nothing fun c hc hline hwithin => hnone c hc ((Position.within_iff hline).mpr hwithin)
  have hnear {c : Entry} (hc : c ∈ v.table.generated.toList) (hline : c.generated.line = p.line)
      (hwithin : Within p.column bias c.generated.column) :
      Within e.generated bias c.generated :=
    hnearest.nearest c hc ((Position.within_iff hline).mpr hwithin)
  rw [hfind]
  dsimp only
  by_cases hline : e.generated.line = p.line
  · rw [if_pos hline]
    refine .entry ⟨hnearest.mem, hline, (Position.within_iff hline).mp hnearest.within, ?_, ?_⟩
    · intro c hc hcline hwithin
      exact (Position.within_iff (hcline.trans hline.symm)).mp (hnear hc hcline hwithin)
    · intro c hc hsame
      refine hnearest.least c hc ?_
      rw [hsame]
      exact Std.ReflOrd.compare_self
  · -- an entry of the line would be nearer than what is found
    rw [if_neg hline]
    refine .nothing fun c hc hcline hwithin => hline ?_
    exact Position.line_eq_of_within hnearest.within (hnear hc hcline hwithin) hcline.symm

/-! ## Original positions -/

/-- Entries say the same of a position in a source after they were sorted. -/
theorem AnswersSource.of_sortGenerated {es : List Entry} {slot? : Option Nat} {p : Position}
    {bias : Bias} {answer : GeneratedPosition}
    (h : AnswersSource (Entry.sortGenerated es) p bias slot? answer) :
    AnswersSource es p bias slot? answer := by
  have hmem {e : Entry} : e ∈ Entry.sortGenerated es ↔ e ∈ es :=
    (Entry.perm_sortGenerated es).mem_iff
  cases h with
  | unknown => exact .unknown
  | nothing hnone => exact .nothing fun e he => hnone e (hmem.mpr he)
  | @entry slot e q h =>
      have hfirst : es.find? e.repeats = some e := by
        rw [← Entry.find?_repeats_mergeSort Entry.generatedOrder (fun _ _ _ _ => rfl) e es]
        exact h.first
      exact .entry
        { mem := hmem.mp h.mem
          place := h.place
          within := h.within
          nearest := fun c hc => h.nearest c (hmem.mpr hc)
          least := fun c hc => h.least c (hmem.mpr hc)
          first := hfirst }

/-! ## Flat maps -/

namespace FlatMap

variable {f : FlatMap} {es : List Entry} {p : Position} {bias : Bias}

theorem exists_view {t : MappingTable} (h : f.table = .ok t) :
    ∃ v, f.view = .ok v ∧ v.table = t :=
  ⟨_, map_eq_ok_iff.mpr ⟨t, h, rfl⟩, rfl⟩

/-- The entries that a position asks for say the same of it. -/
theorem originOf_eq {e e' : Entry} (h : NearestOnLine es p bias e)
    (h' : NearestOnLine es p bias e') : f.originOf e = f.originOf e' := by
  have hcolumn : e.generated.column = e'.generated.column :=
    Std.LawfulEqCmp.eq_of_compare ((h.nearest e' h'.mem h'.line h'.within).antisymm
      (h'.nearest e h.mem h.line h.within))
  have hgenerated : e.generated = e'.generated := by
    have hline := h.line.trans h'.line.symm
    cases hposition : e.generated
    cases hposition' : e'.generated
    simp_all
  have hequal : e.originOrder e' = .eq :=
    Std.OrientedCmp.isLE_antisymm (h.least e' h'.mem hgenerated.symm) (h'.least e h.mem hgenerated)
  simp only [Entry.originOrder, compareLex, compareOn, Ordering.then_eq_eq,
    Std.compare_eq_iff_eq] at hequal
  rw [originOf, originOf, hequal.1, hequal.2]

/-- The entries of a map say one thing of a position. -/
theorem answersPosition_unique {answer answer' : OriginalPosition}
    (h : AnswersPosition f.originOf es p bias answer)
    (h' : AnswersPosition f.originOf es p bias answer') : answer = answer' := by
  cases h with
  | nothing hnone =>
      cases h' with
      | nothing _ => rfl
      | entry h' => exact absurd h'.within (hnone _ h'.mem h'.line)
  | entry h =>
      cases h' with
      | nothing hnone => exact absurd h.within (hnone _ h.mem h.line)
      | entry h' => exact originOf_eq h h'

/-- What an entry says is what its mapping says. -/
theorem answer_mapping {v : View} (hv : f.view = .ok v) (e : Entry) :
    (v.mapping e).answer = f.originOf e := by
  obtain ⟨t, -, rfl⟩ := map_eq_ok_iff.mp hv
  obtain ⟨generated, _ | origin, last⟩ := e
  · rfl
  · simp only [View.mapping, Mapping.answer, originOf, Entry.place?, Entry.name?, View.sourceAt,
      Option.map_some, StringTable.get?_eq]

/-- A look-up tells what the entries say of the position. -/
theorem answersPosition_originalPositionFor (h : f.table = .ok (.ofList es)) (p : Position)
    (bias : Bias) : ∃ answer, (LoadedMap.flat f).originalPositionFor p bias = .ok answer ∧
      AnswersPosition f.originOf es p bias answer := by
  obtain ⟨v, hv, htable⟩ := exists_view h
  have hsorted : v.table.generated.toList.Pairwise fun a b =>
      (Entry.generatedOrder a b).isLE := by
    rw [htable]
    exact pairwise_mergeSort_isLE Entry.generatedOrder es
  have htells := View.answersPosition hsorted p bias
  rw [htable, funext (answer_mapping hv)] at htells
  exact ⟨_, LoadedMap.originalPositionFor_flat hv p bias,
    htells.perm (Entry.perm_sortGenerated es)⟩

theorem sourceSlot?_eq {v : View} (hv : f.view = .ok v) (source : String) :
    v.sourceSlot? source = f.sources.toList.idxOf? (SourceRoot.relativize f.root source) := by
  obtain ⟨t, -, rfl⟩ := map_eq_ok_iff.mp hv
  exact StringTable.indexOf?_eq f.sources _

/-- A look-up tells what the entries say of the position in the source. -/
theorem answersSource_generatedPositionFor (h : f.table = .ok (.ofList es)) (source : String)
    (p : Position) (bias : Bias) :
    ∃ answer, (LoadedMap.flat f).generatedPositionFor source p bias = .ok answer ∧
      AnswersSource es p bias
        (f.sources.toList.idxOf? (SourceRoot.relativize f.root source)) answer := by
  obtain ⟨v, hv, htable⟩ := exists_view h
  have htells := v.answersSource source p bias
  rw [htable, sourceSlot?_eq hv] at htells
  exact ⟨_, LoadedMap.generatedPositionFor_flat hv source p bias, htells.of_sortGenerated⟩

end FlatMap

/-! ## Spans -/

/-- Spans do not change the order of entries. -/
theorem Entry.pairwise_withSpans {es : List Entry}
    (h : es.Pairwise fun a b => (generatedOrder a b).isLE) :
    (withSpans es).Pairwise fun a b => (generatedOrder a b).isLE := by
  have hsorted : (es.map bare).Pairwise fun a b => (generatedOrder a b).isLE :=
    List.pairwise_map.mpr h
  rw [← map_bare_withSpans] at hsorted
  exact List.pairwise_map.mp hsorted

/-- A table with spans holds the entries in generated order with their spans. -/
theorem MappingTable.withSpans_ofList (es : List Entry) :
    (ofList es).withSpans = ofList (Entry.withSpans (Entry.sortGenerated es)) := by
  have hsorted := Entry.pairwise_withSpans (pairwise_mergeSort_isLE Entry.generatedOrder es)
  have hsame : Entry.sortGenerated (Entry.withSpans (Entry.sortGenerated es)) =
      Entry.withSpans (Entry.sortGenerated es) := List.mergeSort_of_pairwise hsorted
  rw [ofList, ofList, hsame]
  rfl

/-! ## Look-ups -/

namespace LoadedMap

variable {f : FlatMap} {es : List Entry}

/-- **A generated position leads to the nearest entry on its line.** Whatever the entries of a flat
map are, a look-up of a generated position answers with what the entry in the nearest column on its
line says, or with nothing if there is none on the side of the bias. Of several entries in this
column the least by source, original position and name counts. The order in which the entries were
given makes no difference. -/
theorem originalPositionFor_meaning (h : f.table = .ok (.ofList es)) (p : Position) (bias : Bias) :
    ∃ answer, (LoadedMap.flat f).originalPositionFor p bias = .ok answer ∧
      (∀ a, AnswersPosition f.originOf es p bias a ↔ a = answer) ∧
      ∀ es', es.Perm es' →
        (LoadedMap.flat { f with table := .ok (.ofList es') }).originalPositionFor p bias =
          .ok answer := by
  obtain ⟨answer, hanswer, htells⟩ := FlatMap.answersPosition_originalPositionFor h p bias
  refine ⟨answer, hanswer, fun a => ⟨fun ha => FlatMap.answersPosition_unique ha htells, ?_⟩,
    fun es' hperm => ?_⟩
  · rintro rfl
    exact htells
  · let f' : FlatMap := { f with table := .ok (.ofList es') }
    have htable : f'.table = .ok (.ofList es') := rfl
    obtain ⟨answer', hanswer', htells'⟩ :=
      FlatMap.answersPosition_originalPositionFor htable p bias
    have hsame : answer' = answer := FlatMap.answersPosition_unique htells' (htells.perm hperm)
    rw [← hsame]
    exact hanswer'

/-- A column with three entries, a look-up past a column without a source, and one whose nearest
entry is on another line. -/
theorem originalPositionFor_meaning_column :
    let es : List Entry :=
      [{ generated := ⟨1, 0⟩ },
        { generated := ⟨1, 5⟩, origin := some { place := ⟨1, ⟨1, 0⟩⟩, name := some 0 } },
        { generated := ⟨1, 5⟩, origin := some { place := ⟨0, ⟨1, 0⟩⟩, name := some 0 } },
        { generated := ⟨1, 5⟩, origin := some { place := ⟨0, ⟨1, 0⟩⟩ } },
        { generated := ⟨3, 2⟩, origin := some { place := ⟨0, ⟨2, 0⟩⟩ } }]
    let f : FlatMap :=
      { file := none, root := some "lib", sources := .ofList ["a.js", "b.js"] true
        names := .ofList ["n"] true, contents := none, table := .ok (.ofList es) }
    let m : LoadedMap := .flat { f with table := .ok (.ofList es.reverse) }
    Entry.decodeAll "A,KCAAA,ADAAA,AAAA;;EACA" { sources := 2, names := 1 } = .ok es ∧
      f.table = .ok (.ofList es) ∧ es.Perm es.reverse ∧
      AnswersPosition f.originOf es ⟨1, 7⟩ .greatestLowerBound
        { source := some "lib/a.js", line := some 1, column := some 0 } ∧
      m.originalPositionFor ⟨1, 7⟩ .greatestLowerBound =
        .ok { source := some "lib/a.js", line := some 1, column := some 0 } ∧
      m.originalPositionFor ⟨1, 3⟩ .greatestLowerBound = .ok {} ∧
      m.originalPositionFor ⟨2, 0⟩ .leastUpperBound = .ok {} := by
  intro es f m
  have hdecode : Entry.decodeAll "A,KCAAA,ADAAA,AAAA;;EACA" { sources := 2, names := 1 } =
      .ok es := by cbv
  have htable : f.table = .ok (.ofList es) := rfl
  have hperm : es.Perm es.reverse := (List.reverse_perm es).symm
  have hmeans (p : Position) (bias : Bias) {answer : OriginalPosition}
      (h : (LoadedMap.flat f).originalPositionFor p bias = .ok answer) :
      AnswersPosition f.originOf es p bias answer ∧ m.originalPositionFor p bias = .ok answer := by
    obtain ⟨answer', hanswer, htells, hreordered⟩ := originalPositionFor_meaning htable p bias
    have hsame : answer = answer' := Except.ok.inj (h.symm.trans hanswer)
    rw [hsame]
    exact ⟨(htells _).mpr rfl, hreordered es.reverse hperm⟩
  have hcolumn : (LoadedMap.flat f).originalPositionFor ⟨1, 7⟩ .greatestLowerBound =
      .ok { source := some "lib/a.js", line := some 1, column := some 0 } := by cbv
  obtain ⟨htells, hanswer⟩ := hmeans _ _ hcolumn
  refine ⟨hdecode, htable, hperm, htells, hanswer, (hmeans _ _ ?_).2, (hmeans _ _ ?_).2⟩
  all_goals cbv

/-- **An original position leads to the nearest entry from its source.** Whatever the entries of a
flat map are, a look-up of a position in a source answers with the generated position of the entry
at the nearest position in this source, or with nothing if there is none on the side of the bias or
the source is unknown. Of several entries there the least by generated column, generated line and
name counts, and of its repetitions the first. Once the spans have been computed the answer has the
last column of this entry. This is about string tables whose slots have numbers of 32 bits. -/
theorem generatedPositionFor_meaning (h : f.table = .ok (.ofList es)) (source : String)
    (p : Position) (bias : Bias) :
    let slot? := f.sources.toList.idxOf? (SourceRoot.relativize f.root source)
    (∃ answer, (LoadedMap.flat f).generatedPositionFor source p bias = .ok answer ∧
      ∀ a, AnswersSource es p bias slot? a ↔ a = answer) ∧
    ∃ answer, (LoadedMap.flat f).computeSpans.2.generatedPositionFor source p bias = .ok answer ∧
      ∀ a, AnswersSource (Entry.withSpans (Entry.sortGenerated es)) p bias slot? a ↔
        a = answer := by
  intro slot?
  have hiff {es : List Entry} {answer : GeneratedPosition}
      (htells : AnswersSource es p bias slot? answer) (a : GeneratedPosition) :
      AnswersSource es p bias slot? a ↔ a = answer := by
    refine ⟨fun ha => ha.unique htells, ?_⟩
    rintro rfl
    exact htells
  have hspans : f.withSpans.table =
      .ok (.ofList (Entry.withSpans (Entry.sortGenerated es))) := by
    rw [FlatMap.withSpans, h, ok_map, MappingTable.withSpans_ofList]
  obtain ⟨answer, hanswer, htells⟩ := FlatMap.answersSource_generatedPositionFor h source p bias
  obtain ⟨answer', hanswer', htells'⟩ :=
    FlatMap.answersSource_generatedPositionFor hspans source p bias
  refine ⟨⟨answer, hanswer, hiff htells⟩, answer', ?_, hiff htells'⟩
  rw [computeSpans]
  exact hanswer'

/-- An entry on a later line in an earlier column, an entry that is repeated, a source that is
passed over and one that is unknown. -/
theorem generatedPositionFor_meaning_place :
    let es : List Entry :=
      [{ generated := ⟨1, 0⟩, origin := some { place := ⟨0, ⟨1, 0⟩⟩ } },
        { generated := ⟨1, 4⟩, origin := some { place := ⟨1, ⟨2, 0⟩⟩ } },
        { generated := ⟨1, 4⟩, origin := some { place := ⟨1, ⟨2, 0⟩⟩ } },
        { generated := ⟨1, 9⟩, origin := some { place := ⟨1, ⟨1, 0⟩⟩ } },
        { generated := ⟨2, 2⟩, origin := some { place := ⟨1, ⟨1, 0⟩⟩ } }]
    let f : FlatMap :=
      { file := none, root := some "lib", sources := .ofList ["a.js", "b.js"] true
        names := .empty, contents := none, table := .ok (.ofList es) }
    let spanned := Entry.withSpans (Entry.sortGenerated es)
    Entry.decodeAll "AAAA,ICCA,AAAA,KADA;EAAA" { sources := 2, names := 0 } = .ok es ∧
      f.table = .ok (.ofList es) ∧
      AnswersSource spanned ⟨1, 7⟩ .greatestLowerBound (some 1)
        { line := some 2, column := some 2, lastColumn := some Coordinate.unbounded } ∧
      AnswersSource spanned ⟨1, 1⟩ .leastUpperBound (some 1)
        { line := some 1, column := some 4, lastColumn := some 3 } ∧
      AnswersSource spanned ⟨1, 3⟩ .leastUpperBound (some 0) {} ∧
      AnswersSource spanned ⟨1, 0⟩ .greatestLowerBound none {} := by
  intro es f spanned
  have hdecode : Entry.decodeAll "AAAA,ICCA,AAAA,KADA;EAAA" { sources := 2, names := 0 } =
      .ok es := by cbv
  have htable : f.table = .ok (.ofList es) := rfl
  have hmeans (source : String) (p : Position) (bias : Bias) {slot? : Option Nat}
      (hslot : f.sources.toList.idxOf? (SourceRoot.relativize f.root source) = slot?)
      {answer : GeneratedPosition}
      (h : (LoadedMap.flat f).computeSpans.2.generatedPositionFor source p bias = .ok answer) :
      AnswersSource spanned p bias slot? answer := by
    obtain ⟨-, answer', hanswer, htells⟩ := generatedPositionFor_meaning htable source p bias
    rw [hslot] at htells
    exact (htells answer).mpr (Except.ok.inj (h.symm.trans hanswer))
  refine ⟨hdecode, htable, hmeans "lib/b.js" _ _ ?_ ?_, hmeans "lib/b.js" _ _ ?_ ?_,
    hmeans "lib/a.js" _ _ ?_ ?_, hmeans "lib/c.js" _ _ ?_ ?_⟩
  all_goals cbv

end LoadedMap

end SourceMap

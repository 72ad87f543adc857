import Mathlib
import SourceMap.Proofs.Delegation
import SourceMap.Proofs.Lookups
import SourceMap.Proofs.Rebuilding

/-!
# The same answers

Whether the spans of a map have been computed shows in the last columns of its answers and in
nothing else. `SameAnswers seen` says that two maps answer everything alike, when generated
positions are looked at through `seen`: as they are, or without their last columns. Index maps whose
sections answer alike do so themselves (`SameAnswers.index`), and a map whose spans are computed
answers alike but for last columns, also where this fails (`sameAnswers_computeSpans`).
-/

set_option autoImplicit false

namespace SourceMap

/-! ## Without last columns -/

/-- A generated position without its last column. -/
def GeneratedPosition.bare (g : GeneratedPosition) : GeneratedPosition :=
  { g with lastColumn := none }

namespace Entry

theorem eq_of_bare_eq {e e' : Entry} (h : e'.bare = e.bare) :
    e' = { e with lastColumn := e'.lastColumn } := by
  obtain ⟨generated, origin, last⟩ := e
  obtain ⟨generated', origin', last'⟩ := e'
  simp_all [bare]

/-- What is found is the same without its span just if nothing is found, or one entry is with
another last column. -/
theorem map_bare_eq_iff {x y : Option Entry} :
    y.map bare = x.map bare ↔
      x = none ∧ y = none ∨ ∃ e last, x = some e ∧ y = some { e with lastColumn := last } := by
  constructor
  · intro h
    cases x with
    | none => exact Or.inl ⟨rfl, Option.map_eq_none_iff.mp h⟩
    | some e =>
        obtain ⟨e', rfl, hsame⟩ := Option.map_eq_some_iff.mp h
        exact Or.inr ⟨e, e'.lastColumn, rfl, congrArg some (eq_of_bare_eq hsame)⟩
  · rintro (⟨rfl, rfl⟩ | ⟨e, last, rfl, rfl⟩)
    · rfl
    · rfl

end Entry

namespace MappingTable

variable (t : MappingTable)

/-- The entry at an index is the same without its span. -/
theorem map_bare_getElem? {xs ys : Array Entry}
    (h : ys.toList.map Entry.bare = xs.toList.map Entry.bare) (i : Nat) :
    ys[i]?.map Entry.bare = xs[i]?.map Entry.bare := by
  rw [← Array.getElem?_toList, ← Array.getElem?_toList, ← List.getElem?_map, h, List.getElem?_map]

theorem map_bare_findGenerated? (p : Position) (bias : Bias) :
    (t.withSpans.findGenerated? p bias).map Entry.bare =
      (t.findGenerated? p bias).map Entry.bare := by
  have hkeys : t.withSpans.generated.toList.map Entry.generated =
      t.generated.toList.map Entry.generated := by
    have h := congrArg (List.map Entry.generated) t.map_bare_generated
    rwa [List.map_map, List.map_map] at h
  rw [findGenerated?, findGenerated?, Search.findIndex?_congr Entry.generated p hkeys bias,
    Option.map_bind, Option.map_bind]
  exact Option.bind_congr fun i _ => map_bare_getElem? t.map_bare_generated i

theorem findOriginal?_withSpans (place : Place) (bias : Bias) :
    t.withSpans.findOriginal? place bias = t.findOriginal? place bias := by
  have hkeys : t.withSpans.original.toList.map Entry.place? =
      t.original.toList.map Entry.place? := by
    have h := congrArg (List.map Entry.place?) t.map_bare_original
    rwa [List.map_map, List.map_map] at h
  exact Search.findIndex?_congr Entry.place? (some place) hkeys bias

end MappingTable

/-! ## Views -/

namespace View

variable (v : View)

theorem table_withSpans : v.withSpans.table = v.table.withSpans := rfl

theorem sourceSlot?_withSpans (source : String) :
    v.withSpans.sourceSlot? source = v.sourceSlot? source := rfl

/-- An entry that is found is found with its span, and what it says of a position is the same. -/
theorem originalPositionFor_withSpans (p : Position) (bias : Bias) :
    v.withSpans.originalPositionFor p bias = v.originalPositionFor p bias := by
  rw [originalPositionFor_eq, originalPositionFor_eq, table_withSpans]
  rcases Entry.map_bare_eq_iff.mp (v.table.map_bare_findGenerated? p bias) with
    ⟨hfound, hfound'⟩ | ⟨e, last, hfound, hfound'⟩
  · rw [hfound, hfound']
  · rw [hfound, hfound']
    rfl

theorem bare_generatedPositionFor_withSpans (source : String) (p : Position) (bias : Bias) :
    (v.withSpans.generatedPositionFor source p bias).bare =
      (v.generatedPositionFor source p bias).bare := by
  rw [generatedPositionFor, generatedPositionFor, sourceSlot?_withSpans, table_withSpans]
  cases v.sourceSlot? source with
  | none => rfl
  | some slot =>
      dsimp only
      rw [MappingTable.findOriginal?_withSpans]
      cases v.table.findOriginal? { source := slot, position := p } bias with
      | none => rfl
      | some i =>
          rw [Option.bind_some, Option.bind_some]
          rcases Entry.map_bare_eq_iff.mp
              (MappingTable.map_bare_getElem? v.table.map_bare_original i) with
            ⟨hfound, hfound'⟩ | ⟨e, last, hfound, hfound'⟩
          · rw [hfound, hfound']
          · rw [hfound, hfound']
            dsimp only
            rw [apply_ite GeneratedPosition.bare, apply_ite GeneratedPosition.bare]
            rfl

theorem bare_allGeneratedPositionsFor_withSpans (source : String) (line : UInt32)
    (column : Option UInt32) :
    (v.withSpans.allGeneratedPositionsFor source line column).map GeneratedPosition.bare =
      (v.allGeneratedPositionsFor source line column).map GeneratedPosition.bare := by
  have hget (i : Nat) : (v.table.withSpans.original[i]?).bind Entry.place? =
      (v.table.original[i]?).bind Entry.place? := by
    have h := congrArg (Option.bind · Entry.place?)
      (MappingTable.map_bare_getElem? v.table.map_bare_original i)
    rwa [Option.bind_map, Option.bind_map] at h
  -- the run that is taken is the same, as spans are not looked at
  have hrun (i slot : Nat) (line : UInt32) (column : Option UInt32) :
      (((v.table.withSpans.original.toList.drop i).takeWhile
          (comesFrom slot line column)).map positionOf).map GeneratedPosition.bare =
        (((v.table.original.toList.drop i).takeWhile
          (comesFrom slot line column)).map positionOf).map GeneratedPosition.bare := by
    have h := congrArg
      (fun es => ((es.drop i).takeWhile (comesFrom slot line column)).map positionOf)
      v.table.map_bare_original
    simp only [← List.map_drop, List.takeWhile_map, List.map_map] at h ⊢
    exact h
  rw [allGeneratedPositionsFor, allGeneratedPositionsFor, sourceSlot?_withSpans, table_withSpans]
  cases v.sourceSlot? source with
  | none => rfl
  | some slot =>
      dsimp only
      rw [MappingTable.findOriginal?_withSpans]
      cases v.table.findOriginal? ⟨slot, ⟨line, column.getD 0⟩⟩ .leastUpperBound with
      | none => rfl
      | some start =>
          dsimp only
          rw [hget]
          cases (v.table.original[start]?).bind Entry.place? with
          | none => rfl
          | some found =>
              dsimp only
              split
              · cases column with
                | none => exact hrun start slot found.position.line none
                | some _ => exact hrun start slot line (some found.position.column)
              · rfl

end View

/-! ## Maps -/

namespace LoadedMap

/-- Whether two maps answer every query alike, when generated positions are looked at through
`seen`. -/
structure SameAnswers (seen : GeneratedPosition → GeneratedPosition) (m m' : LoadedMap) :
    Prop where
  file : m'.file = m.file
  root : m'.root = m.root
  offsets : m'.sections?.map (List.map Placed.offset) = m.sections?.map (List.map Placed.offset)
  sourceNames : m'.sourceNames = m.sourceNames
  hasSource : ∀ source, m'.hasSource source = m.hasSource source
  contentFor : ∀ source nullOnMissing,
    m'.contentFor source nullOnMissing = m.contentFor source nullOnMissing
  hasAllContents : m'.hasAllContents = m.hasAllContents
  mappings : ∀ order, m'.mappings order = m.mappings order
  originalPositionFor : ∀ p bias, m'.originalPositionFor p bias = m.originalPositionFor p bias
  generatedPositionFor : ∀ source p bias,
    (m'.generatedPositionFor source p bias).map seen =
      (m.generatedPositionFor source p bias).map seen
  allGeneratedPositionsFor : ∀ source line column,
    (m'.allGeneratedPositionsFor source line column).map (List.map seen) =
      (m.allGeneratedPositionsFor source line column).map (List.map seen)

/-- Whether lines and columns are seen as they are, and whether what is seen of an answer in the
coordinates of the file depends on what is seen of the answer of the section only. -/
structure Sees (seen : GeneratedPosition → GeneratedPosition) : Prop where
  line : ∀ g, (seen g).line = g.line
  column : ∀ g, (seen g).column = g.column
  global : ∀ offset p found found', seen found' = seen found →
    (toGlobalAnswer offset found' p).map seen = (toGlobalAnswer offset found p).map seen

theorem sees_id : Sees id where
  line _ := rfl
  column _ := rfl
  global offset p found found' h := by
    have hsame : found' = found := h
    rw [hsame]

theorem sees_bare : Sees GeneratedPosition.bare where
  line _ := rfl
  column _ := rfl
  global offset p found found' _ := by
    rw [toGlobalAnswer, toGlobalAnswer]
    cases offset.toGlobal? p with
    | none => rfl
    | some g => rfl

variable {seen : GeneratedPosition → GeneratedPosition}

theorem SameAnswers.refl (m : LoadedMap) : SameAnswers seen m m where
  file := rfl
  root := rfl
  offsets := rfl
  sourceNames := rfl
  hasSource _ := rfl
  contentFor _ _ := rfl
  hasAllContents := rfl
  mappings _ := rfl
  originalPositionFor _ _ := rfl
  generatedPositionFor _ _ _ := rfl
  allGeneratedPositionsFor _ _ _ := rfl

/-! ## Sections -/

/-- Whether a section is where another one is and answers alike. -/
def SameSection (seen : GeneratedPosition → GeneratedPosition) (s s' : Placed LoadedMap) : Prop :=
  s'.offset = s.offset ∧ SameAnswers seen s.map s'.map

section

variable {sections sections' : List (Placed LoadedMap)}

theorem allSourceNames_congr (h : List.Forall₂ (SameSection seen) sections sections') :
    allSourceNames sections' = allSourceNames sections := by
  induction h with
  | nil => rfl
  | cons hs _ ih => rw [allSourceNames, allSourceNames, hs.2.sourceNames, ih]

theorem anyHasSource_congr (h : List.Forall₂ (SameSection seen) sections sections')
    (source : String) : anyHasSource source sections' = anyHasSource source sections := by
  induction h with
  | nil => rfl
  | cons hs _ ih => rw [anyHasSource, anyHasSource, hs.2.hasSource, ih]

theorem firstContent_congr (h : List.Forall₂ (SameSection seen) sections sections')
    (source : String) : firstContent source sections' = firstContent source sections := by
  induction h with
  | nil => rfl
  | cons hs _ ih => rw [firstContent, firstContent, hs.2.contentFor, ih]

theorem allHaveContents_congr (h : List.Forall₂ (SameSection seen) sections sections') :
    allHaveContents sections' = allHaveContents sections := by
  induction h with
  | nil => rfl
  | cons hs _ ih => rw [allHaveContents, allHaveContents, hs.2.hasAllContents, ih]

theorem originalPositionIn_congr (h : List.Forall₂ (SameSection seen) sections sections')
    (p : Position) (bias : Bias) (i : Nat) :
    originalPositionIn p bias i sections' = originalPositionIn p bias i sections := by
  induction h generalizing i with
  | nil => rfl
  | cons hs _ ih =>
      cases i with
      | zero => rw [originalPositionIn, originalPositionIn, hs.1, hs.2.originalPositionFor]
      | succ i => rw [originalPositionIn, originalPositionIn, ih]

/-- The first section that knows an original position is the same one. -/
theorem generatedPositionIn_congr (hseen : Sees seen)
    (h : List.Forall₂ (SameSection seen) sections sections') (source : String) (p : Position)
    (bias : Bias) (index : Nat) :
    (generatedPositionIn source p bias index sections').map seen =
      (generatedPositionIn source p bias index sections).map seen := by
  induction h generalizing index with
  | nil => rfl
  | @cons s s' sections sections' hs _ ih =>
      rw [generatedPositionIn, generatedPositionIn, hs.1, hs.2.hasSource]
      split
      · rcases map_eq_map_iff.mp (hs.2.generatedPositionFor source p bias) with
          ⟨e, hfound, hfound'⟩ | ⟨found, found', hfound, hfound', hsame⟩
        · rw [hfound, hfound']
        · have hline : found'.line = found.line := by
            rw [← hseen.line, hsame, hseen.line]
          have hcolumn : found'.column = found.column := by
            rw [← hseen.column, hsame, hseen.column]
          rw [hfound, hfound']
          dsimp only
          rw [hline, hcolumn]
          split
          · rename_i line column _ _
            rcases map_eq_map_iff.mp (hseen.global s.offset ⟨line, column⟩ found found' hsame) with
              ⟨e, hglobal, hglobal'⟩ | ⟨answer, answer', hglobal, hglobal', hsame'⟩
            · rw [hglobal, hglobal']
            · rw [hglobal, hglobal']
              exact congrArg Except.ok hsame'
          · exact ih (index + 1)
      · exact ih (index + 1)

/-- **Index maps whose sections answer alike answer alike**, if their merged views do. -/
theorem SameAnswers.index (hseen : Sees seen)
    (h : List.Forall₂ (SameSection seen) sections sections') {merged merged' : Except Error View}
    (hmappings : ∀ order, merged'.map (·.mappings order) = merged.map (·.mappings order))
    (hall : ∀ source line column,
      (merged'.map (·.allGeneratedPositionsFor source line column)).map (List.map seen) =
        (merged.map (·.allGeneratedPositionsFor source line column)).map (List.map seen))
    (file : Option String) :
    SameAnswers seen (.index file sections merged) (.index file sections' merged') where
  file := rfl
  root := rfl
  offsets := congrArg some (map_eq_of_forall₂ (fun hs => hs.1) h)
  sourceNames := allSourceNames_congr h
  hasSource := anyHasSource_congr h
  contentFor source nullOnMissing := by
    rw [LoadedMap.contentFor, LoadedMap.contentFor, firstContent_congr h]
  hasAllContents := allHaveContents_congr h
  mappings := hmappings
  originalPositionFor p bias := by
    have hat : sectionAt? sections' p = sectionAt? sections p :=
      sectionAt?_congr (map_eq_of_forall₂ (fun hs => hs.1) h) p
    rw [LoadedMap.originalPositionFor, LoadedMap.originalPositionFor, hat]
    cases sectionAt? sections p with
    | none => rfl
    | some i =>
        dsimp only
        rw [originalPositionIn_congr h]
  generatedPositionFor source p bias := generatedPositionIn_congr hseen h source p bias 0
  allGeneratedPositionsFor := hall

end

/-! ## Spans -/

/-- Computing the spans of a flat map shows in the last columns only. -/
theorem sameAnswers_withSpans (f : FlatMap) :
    SameAnswers GeneratedPosition.bare (.flat f) (.flat f.withSpans) where
  file := rfl
  root := rfl
  offsets := rfl
  sourceNames := rfl
  hasSource _ := rfl
  contentFor _ _ := rfl
  hasAllContents := rfl
  mappings order := by
    rw [LoadedMap.mappings, LoadedMap.mappings, LoadedMap.view, LoadedMap.view,
      FlatMap.view_withSpans]
    cases f.view with
    | error e => rfl
    | ok v => exact congrArg Except.ok (v.mappings_withSpans order)
  originalPositionFor p bias := by
    rw [LoadedMap.originalPositionFor, LoadedMap.originalPositionFor, FlatMap.view_withSpans]
    cases f.view with
    | error e => rfl
    | ok v => exact congrArg Except.ok (v.originalPositionFor_withSpans p bias)
  generatedPositionFor source p bias := by
    rw [LoadedMap.generatedPositionFor, LoadedMap.generatedPositionFor, FlatMap.view_withSpans]
    cases f.view with
    | error e => rfl
    | ok v => exact congrArg Except.ok (v.bare_generatedPositionFor_withSpans source p bias)
  allGeneratedPositionsFor source line column := by
    rw [LoadedMap.allGeneratedPositionsFor, LoadedMap.allGeneratedPositionsFor, LoadedMap.view,
      LoadedMap.view, FlatMap.view_withSpans]
    cases f.view with
    | error e => rfl
    | ok v =>
        exact congrArg Except.ok (v.bare_allGeneratedPositionsFor_withSpans source line column)

/-- **Computing spans shows in the last columns only**, also where it fails. -/
theorem sameAnswers_computeSpans (m : LoadedMap) :
    SameAnswers GeneratedPosition.bare m m.computeSpans.2 := by
  induction m using LoadedMap.induction with
  | hflat f => exact sameAnswers_withSpans f
  | hindex file sections merged ih =>
      have hsections : List.Forall₂ (SameSection GeneratedPosition.bare) sections
          (computeSpansIn 0 sections).2 := by
        refine ((List.forall₂_and_left _ _).mpr ⟨ih, forall₂_computeSpansIn sections 0⟩).imp ?_
        rintro s s' ⟨hs, hoffset, hmap | hmap⟩
        · refine ⟨hoffset, ?_⟩
          rw [hmap]
          exact .refl s.map
        · refine ⟨hoffset, ?_⟩
          rw [hmap]
          exact hs
      rw [computeSpans]
      split
      · -- where a section fails the merged view stays as it is
        rename_i e sections' hspans
        rw [hspans] at hsections
        exact .index sees_bare hsections (fun _ => rfl) (fun _ _ _ => rfl) file
      · rename_i sections' hspans
        rw [hspans] at hsections
        refine .index sees_bare hsections (fun order => ?_) (fun source line column => ?_) file
        · cases merged with
          | error e => rfl
          | ok v => exact congrArg Except.ok (v.mappings_withSpans order)
        · cases merged with
          | error e => rfl
          | ok v =>
              exact congrArg Except.ok
                (v.bare_allGeneratedPositionsFor_withSpans source line column)

end LoadedMap

end SourceMap

import Mathlib
import SourceMap.Proofs.Text

/-!
# What a text says

The reading of a `mappings` text without running values: every value is the sum of all differences
of its kind that have been read, of those on the line for a generated column. `Reads` goes through
the segments of a text as long as none offends, and `Fails` gives the error of the first that does.

Decoding a text is no more than this (`decode_eq`), although the decoder keeps what segments spell
and goes on from running values. The invariant that carries the proof is that the
running values are these sums (`Follows`).
-/

set_option autoImplicit false

namespace SourceMap.Reading

open Coordinate

/-! ## Sums of differences -/

/-- A segment that has been read: its line and its differences. -/
structure Step where
  line : Nat
  delta : Delta

namespace Step

/-- The sum of the column differences on a line. -/
def columnOn (line : Nat) (steps : List Step) : Int :=
  ((steps.filter fun t => t.line = line).map fun t => t.delta.column).sum

/-- The sum of the differences of one kind. -/
def total (part : PlaceDelta → Int) (steps : List Step) : Int :=
  ((steps.filterMap fun t => t.delta.place).map part).sum

/-- The values on a line that steps lead to. -/
def values (steps : List Step) (line : Nat) : Running where
  line := line
  column := columnOn line steps
  source := total PlaceDelta.source steps
  originalLine := total PlaceDelta.line steps
  originalColumn := total PlaceDelta.column steps
  name := total (fun p => p.name.getD 0) steps

/-- The values that a segment with the differences `d` leads to after some steps. -/
def lead (before : List Step) (s : Segment) (d : Delta) : Running :=
  values (before ++ [{ line := s.line, delta := d }]) s.line

end Step

open Step Segment

/-! ## The reading -/

/-- After some steps, segments are read as entries, one for each. A segment is read if it spells
differences that lead to values without fault. -/
inductive Reads (sizes : TableSizes) : List Step → List Segment → List Entry → Prop
  | nil (before : List Step) : Reads sizes before [] []
  | cons {before : List Step} {s : Segment} {d : Delta} {ss : List Segment} {es : List Entry} :
      Quantities s.text d.numbers [] →
      faults sizes s.text d (lead before s d) = [] →
      Reads sizes (before ++ [{ line := s.line, delta := d }]) ss es →
      Reads sizes before (s :: ss) (Entry.ofValues d (lead before s d) :: es)

/-- After some steps, segments are not read because of the first that offends. It is misspelt, or
its values have faults, the first of which counts. -/
inductive Fails (sizes : TableSizes) : List Step → List Segment → Error → Prop
  | misspelt {before : List Step} {s : Segment} {ss : List Segment} {e : Error} :
      Misspelt s.text e → Fails sizes before (s :: ss) e
  | faulty {before : List Step} {s : Segment} {d : Delta} {ss : List Segment} {e : Error} :
      Quantities s.text d.numbers [] →
      (faults sizes s.text d (lead before s d)).head? = some e →
      Fails sizes before (s :: ss) e
  | later {before : List Step} {s : Segment} {d : Delta} {ss : List Segment} {e : Error} :
      Quantities s.text d.numbers [] →
      faults sizes s.text d (lead before s d) = [] →
      Fails sizes (before ++ [{ line := s.line, delta := d }]) ss e →
      Fails sizes before (s :: ss) e

/-! ## Running values are sums -/

namespace Step

theorem columnOn_concat (line : Nat) (steps : List Step) (t : Step) :
    columnOn line (steps ++ [t]) =
      columnOn line steps + if t.line = line then t.delta.column else 0 := by
  rw [columnOn, columnOn, List.filter_append, List.map_append, List.sum_append]
  by_cases h : t.line = line
  · simp [h]
  · simp [h]

theorem total_concat (part : PlaceDelta → Int) (steps : List Step) (t : Step) :
    total part (steps ++ [t]) = total part steps + match t.delta.place with
      | none => 0
      | some p => part p := by
  rw [total, total, List.filterMap_append, List.map_append, List.sum_append]
  cases h : t.delta.place with
  | none => simp [h]
  | some p => simp [h]

/-- Nothing has been read on a line that is yet to come. -/
theorem columnOn_of_lt {line : Nat} {steps : List Step} (h : ∀ t ∈ steps, t.line < line) :
    columnOn line steps = 0 := by
  have hnone : steps.filter (fun t => t.line = line) = [] := by
    refine List.filter_eq_nil_iff.mpr fun t ht => ?_
    have hlt := h t ht
    simp only [decide_eq_true_eq]
    omega
  rw [columnOn, hnone]
  rfl

end Step

/-- Whether running values are the sums of the steps before. -/
structure Follows (steps : List Step) (r : Running) : Prop where
  eq : r = values steps r.line
  line : ∀ t ∈ steps, t.line ≤ r.line

theorem follows_start : Follows [] {} :=
  ⟨rfl, fun _ ht => (List.not_mem_nil ht).elim⟩

/-- **The values that a segment leads to are sums again.** -/
theorem Follows.advance {steps : List Step} {r : Running} (h : Follows steps r) {s : Segment}
    (hline : r.line ≤ s.line) (d : Delta) : r.advance s.line d = lead steps s d := by
  -- on a new line the sum of its differences is empty
  have hcolumn : (r.enter s.line).column = columnOn s.line steps := by
    unfold Running.enter
    split
    · rename_i hsame
      rw [hsame]
      exact congrArg Running.column h.eq
    · rename_i hne
      refine (columnOn_of_lt fun t ht => ?_).symm
      have hle := h.line t ht
      omega
  have hsource := congrArg Running.source h.eq
  have holine := congrArg Running.originalLine h.eq
  have hocolumn := congrArg Running.originalColumn h.eq
  have hname := congrArg Running.name h.eq
  obtain ⟨column, _ | p⟩ := d
  · simp only [Running.advance, lead, values, columnOn_concat, total_concat, hcolumn, if_true,
      add_zero]
    simp only [hsource, holine, hocolumn, hname, values]
  · simp only [Running.advance, lead, values, columnOn_concat, total_concat, hcolumn, if_true]
    simp only [hsource, holine, hocolumn, hname, values]

/-- The sums go on with the next segment. -/
theorem Follows.concat {steps : List Step} {r : Running} (h : Follows steps r) {s : Segment}
    (hline : r.line ≤ s.line) (d : Delta) :
    Follows (steps ++ [{ line := s.line, delta := d }]) (lead steps s d) := by
  refine ⟨rfl, ?_⟩
  intro t ht
  show t.line ≤ s.line
  rcases List.mem_append.mp ht with ht | ht
  · exact (h.line t ht).trans hline
  · rw [List.mem_singleton.mp ht]

/-- Values without fault are what their entry leaves behind. -/
theorem after_ofValues {sizes : TableSizes} {text : List Char} {r : Running} {line : Nat}
    {d : Delta} (hline : InRange line) (h : faults sizes text d (r.advance line d) = []) :
    r.after (Entry.ofValues d (r.advance line d)) = r.advance line d := by
  -- every value is in range, so the words of the entry have these values
  have hword : (word line).toNat = line := Int.ofNat_inj.mp (toNat_word hline)
  obtain ⟨hcolumn, hplace⟩ := List.append_eq_nil_iff.mp h
  rw [wordFaults_eq_nil_iff] at hcolumn
  have hcolumn' := toNat_word hcolumn
  obtain ⟨column, _ | ⟨source, oline, ocolumn, name⟩⟩ := d
  · simp only [Running.advance] at hcolumn'
    simp [Running.after, Entry.ofValues, Running.advance, hword, hcolumn']
  · obtain ⟨⟨hsource, -⟩, -, hocolumn, holine, hname⟩ := placeFaults_eq_nil_iff.mp hplace
    have hsource' := Int.toNat_of_nonneg hsource.1
    have holine' := toNat_word holine
    have hocolumn' := toNat_word hocolumn
    simp only [Running.advance] at hcolumn' hsource' holine' hocolumn'
    cases name with
    | none =>
        simp [Running.after, Entry.ofValues, Origin.ofValues, Running.advance, hword, hcolumn',
          hsource', holine', hocolumn']
    | some n =>
        have hname' := Int.toNat_of_nonneg (hname rfl).1.1
        simp only [Running.advance, Option.getD_some] at hname'
        simp [Running.after, Entry.ofValues, Origin.ofValues, Running.advance, hword, hcolumn',
          hsource', holine', hocolumn', hname']

/-! ## The reader reads -/

variable {sizes : TableSizes}

/-- What reading one segment gives, when the running values are sums. -/
theorem Follows.read_eq_ok_iff {steps : List Step} {r : Running} (h : Follows steps r)
    {s : Segment} (hle : r.line ≤ s.line) (hline : InRange s.line) {e : Entry} :
    r.read sizes s = .ok e ↔ ∃ d, Quantities s.text d.numbers [] ∧
      faults sizes s.text d (lead steps s d) = [] ∧ e = Entry.ofValues d (lead steps s d) := by
  simp only [Running.read_eq_ok_iff hline, Delta.parse_eq_ok_iff, h.advance hle]

theorem Follows.read_eq_error_iff {steps : List Step} {r : Running} (h : Follows steps r)
    {s : Segment} (hle : r.line ≤ s.line) (hline : InRange s.line) {e : Error} :
    r.read sizes s = .error e ↔ Misspelt s.text e ∨ ∃ d, Quantities s.text d.numbers [] ∧
      (faults sizes s.text d (lead steps s d)).head? = some e := by
  simp only [Running.read_eq_error_iff hline, Delta.parse_eq_ok_iff, Delta.parse_eq_error_iff,
    h.advance hle]

/-- After a segment the running values are sums again. -/
theorem Follows.after {steps : List Step} {r : Running} (h : Follows steps r) {s : Segment}
    (hle : r.line ≤ s.line) (hline : InRange s.line) {d : Delta}
    (hfaults : faults sizes s.text d (lead steps s d) = []) :
    r.after (Entry.ofValues d (lead steps s d)) = lead steps s d := by
  rw [← h.advance hle] at hfaults ⊢
  exact after_ofValues hline hfaults

/-- A segment spells one row of differences only. -/
theorem eq_of_quantities {text : List Char} {d d' : Delta} (h : Quantities text d.numbers [])
    (h' : Quantities text d'.numbers []) : d = d' := by
  have heq := (Delta.parse_eq_ok_iff.mpr h).symm.trans (Delta.parse_eq_ok_iff.mpr h')
  exact Except.ok.inj heq

theorem not_misspelt {text : List Char} {d : Delta} {e : Error}
    (h : Quantities text d.numbers []) : ¬ Misspelt text e := by
  intro h'
  have heq := (Delta.parse_eq_ok_iff.mpr h).symm.trans (Delta.parse_eq_error_iff.mpr h')
  cases heq

section

variable {before : List Step} {s : Segment} {ss : List Segment} {d : Delta}

/-- After a segment that can be read, the rest is read. -/
theorem reads_cons_iff (hspells : Quantities s.text d.numbers [])
    (hfaults : faults sizes s.text d (lead before s d) = []) {all : List Entry} :
    Reads sizes before (s :: ss) all ↔
      ∃ es, Reads sizes (before ++ [{ line := s.line, delta := d }]) ss es ∧
        all = Entry.ofValues d (lead before s d) :: es := by
  constructor
  · intro h
    cases h with
    | cons hspells' _ hreads =>
        cases eq_of_quantities hspells hspells'
        exact ⟨_, hreads, rfl⟩
  · rintro ⟨es, hreads, rfl⟩
    exact .cons hspells hfaults hreads

/-- After a segment that can be read, the first that offends is one of the rest. -/
theorem fails_cons_iff (hspells : Quantities s.text d.numbers [])
    (hfaults : faults sizes s.text d (lead before s d) = []) {e : Error} :
    Fails sizes before (s :: ss) e ↔
      Fails sizes (before ++ [{ line := s.line, delta := d }]) ss e := by
  constructor
  · intro h
    cases h with
    | misspelt hmisspelt => exact absurd hmisspelt (not_misspelt hspells)
    | faulty hspells' hhead =>
        cases eq_of_quantities hspells hspells'
        rw [hfaults] at hhead
        cases hhead
    | later hspells' _ h =>
        cases eq_of_quantities hspells hspells'
        exact h
  · exact .later hspells hfaults

end

/-- Whether segments go on from a line, in order, and with lines that are coordinates. -/
structure GoesOn (line : Nat) (ss : List Segment) : Prop where
  start : ∀ s ∈ ss, line ≤ s.line
  inRange : ∀ s ∈ ss, InRange s.line
  sorted : ss.Pairwise fun s t => s.line ≤ t.line

theorem GoesOn.tail {line : Nat} {s : Segment} {ss : List Segment} (h : GoesOn line (s :: ss)) :
    GoesOn s.line ss := by
  obtain ⟨hhead, htail⟩ := List.pairwise_cons.mp h.sorted
  exact ⟨hhead, fun t ht => h.inRange t (List.mem_cons_of_mem s ht), htail⟩

/-- **Segments that can be read are read**, whatever has been found before. -/
theorem readEach_eq_ok_iff {ss : List Segment} :
    ∀ {steps : List Step} {r : Running} {found : List Entry}, Follows steps r → GoesOn r.line ss →
      ∀ {all : List Entry}, Running.readEach sizes r found ss = .ok all ↔
        ∃ es, Reads sizes steps ss es ∧ all = found.reverse ++ es := by
  induction ss with
  | nil =>
      intro steps r found _ _ all
      rw [Running.readEach, Except.ok.injEq]
      constructor
      · rintro rfl
        exact ⟨[], .nil steps, (List.append_nil _).symm⟩
      · rintro ⟨es, hreads, rfl⟩
        cases hreads
        exact (List.append_nil _).symm
  | cons s ss ih =>
      intro steps r found hfollows hgoes all
      have hle := hgoes.start s List.mem_cons_self
      have hline := hgoes.inRange s List.mem_cons_self
      rw [Running.readEach]
      cases hread : r.read sizes s with
      | error e =>
          -- an entry would have been read from a segment that can be read
          constructor
          · rintro ⟨⟩
          · rintro ⟨es, hreads, -⟩
            cases hreads with
            | cons hspells hfaults _ =>
                rw [(hfollows.read_eq_ok_iff hle hline).mpr ⟨_, hspells, hfaults, rfl⟩] at hread
                cases hread
      | ok e =>
          obtain ⟨d, hspells, hfaults, rfl⟩ := (hfollows.read_eq_ok_iff hle hline).mp hread
          -- the running values are the sums after one more segment
          have hafter := hfollows.after hle hline hfaults
          have hnext : Running.readEach sizes (lead steps s d)
              (Entry.ofValues d (lead steps s d) :: found) ss = .ok all ↔
              ∃ es, Reads sizes (steps ++ [{ line := s.line, delta := d }]) ss es ∧
                all = (Entry.ofValues d (lead steps s d) :: found).reverse ++ es :=
            ih (hfollows.concat hle d) hgoes.tail
          simp only [hafter, hnext, reads_cons_iff hspells hfaults, List.reverse_cons,
            List.append_assoc, List.singleton_append]
          constructor
          · rintro ⟨es, hreads, rfl⟩
            exact ⟨_, ⟨es, hreads, rfl⟩, rfl⟩
          · rintro ⟨_, ⟨es, hreads, rfl⟩, rfl⟩
            exact ⟨es, hreads, rfl⟩

/-- **The first segment that offends gives the error.** -/
theorem readEach_eq_error_iff {ss : List Segment} {e : Error} :
    ∀ {steps : List Step} {r : Running} {found : List Entry}, Follows steps r → GoesOn r.line ss →
      (Running.readEach sizes r found ss = .error e ↔ Fails sizes steps ss e) := by
  induction ss with
  | nil =>
      intro steps r found _ _
      rw [Running.readEach]
      constructor
      · rintro ⟨⟩
      · rintro ⟨⟩
  | cons s ss ih =>
      intro steps r found hfollows hgoes
      have hle := hgoes.start s List.mem_cons_self
      have hline := hgoes.inRange s List.mem_cons_self
      rw [Running.readEach]
      cases hread : r.read sizes s with
      | error e' =>
          have hoffends := (hfollows.read_eq_error_iff hle hline).mp hread
          constructor
          · intro h
            cases h
            rcases hoffends with hmisspelt | ⟨d, hspells, hhead⟩
            · exact .misspelt hmisspelt
            · exact .faulty hspells hhead
          · intro h
            -- reading the segment has one outcome, so that the errors are the same
            have hread' : r.read sizes s = .error e := by
              rw [hfollows.read_eq_error_iff hle hline]
              cases h with
              | misspelt hmisspelt => exact Or.inl hmisspelt
              | faulty hspells hhead => exact Or.inr ⟨_, hspells, hhead⟩
              | later hspells hfaults _ =>
                  rw [(hfollows.read_eq_ok_iff hle hline).mpr ⟨_, hspells, hfaults, rfl⟩] at hread
                  cases hread
            rw [hread] at hread'
            cases hread'
            rfl
      | ok a =>
          obtain ⟨d, hspells, hfaults, rfl⟩ := (hfollows.read_eq_ok_iff hle hline).mp hread
          have hafter := hfollows.after hle hline hfaults
          simp only [hafter, fails_cons_iff hspells hfaults]
          exact ih (hfollows.concat hle d) hgoes.tail

/-- The segments of a text go on from its first line. -/
theorem goesOn_pieces {text : List Char} (h : text.count ';' < UInt32.size - 1) :
    GoesOn 1 (pieces text) := by
  refine ⟨?_, ?_, pairwise_pieces text⟩
  · intro s hs
    exact (line_of_mem_pieces hs).1
  · intro s hs
    have hline := line_of_mem_pieces hs
    refine ⟨Int.natCast_nonneg _, ?_⟩
    omega

/-- **Decoding is the reading of a text.** A table is decoded just from a text all of whose segments
can be read, and has one entry for each. Any other text gives the error of its first segment that
offends. -/
theorem decode_eq (text : String) (sizes : TableSizes)
    (h : text.toList.count ';' < UInt32.size - 1) :
    (∀ table, MappingTable.decode text sizes = .ok table ↔
      ∃ es, Reads sizes [] (pieces text.toList) es ∧ table = .ofList es ∧
        table.generated.toList.Perm es) ∧
    ∀ e, MappingTable.decode text sizes = .error e ↔ Fails sizes [] (pieces text.toList) e := by
  have hgoes := goesOn_pieces h
  have hdecode :
      Entry.decodeAll text sizes = Running.readEach sizes {} [] (pieces text.toList) := by
    rw [Entry.decodeAll_eq, Entry.split_eq_pieces]
  constructor
  · intro table
    rw [MappingTable.decode, map_eq_ok_iff, hdecode]
    constructor
    · rintro ⟨es, hes, rfl⟩
      obtain ⟨es', hreads, hsame⟩ := (readEach_eq_ok_iff follows_start hgoes).mp hes
      rw [List.reverse_nil, List.nil_append] at hsame
      rw [hsame]
      exact ⟨es', hreads, rfl, Entry.perm_sortGenerated es'⟩
    · rintro ⟨es, hreads, htable, -⟩
      exact ⟨es, (readEach_eq_ok_iff follows_start hgoes).mpr ⟨es, hreads, rfl⟩, htable.symm⟩
  · intro e
    rw [MappingTable.decode, hdecode, ← readEach_eq_error_iff follows_start hgoes]
    cases Running.readEach sizes {} [] (pieces text.toList) with
    | error e' => simp
    | ok all =>
        constructor
        · rintro ⟨⟩
        · rintro ⟨⟩

/-- A column may go on by one on its line, but not back below zero. -/
theorem decode_eq_column :
    "AAAA,C".toList.count ';' < UInt32.size - 1 ∧ "AAAA,D".toList.count ';' < UInt32.size - 1 ∧
      (∃ es, Reads { sources := 1, names := 0 } [] (pieces "AAAA,C".toList) es) ∧
      Fails { sources := 1, names := 0 } [] (pieces "AAAA,D".toList)
        (.outOfRange (.segment "D")) := by
  have hreads := (decode_eq "AAAA,C" { sources := 1, names := 0 } (by decide)).1
  have hfails := (decode_eq "AAAA,D" { sources := 1, names := 0 } (by decide)).2
  refine ⟨by decide, by decide, ?_, (hfails _).mp rfl⟩
  obtain ⟨es, h, -⟩ := (hreads (.ofList
    [{ generated := ⟨1, 0⟩, origin := some { place := ⟨0, ⟨1, 0⟩⟩ } },
      { generated := ⟨1, 1⟩ }])).mp rfl
  exact ⟨es, h⟩

end SourceMap.Reading

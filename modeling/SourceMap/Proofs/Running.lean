import Mathlib
import SourceMap.Mappings.Running
import SourceMap.Proofs.Except
import SourceMap.Proofs.Segment

/-!
# What one segment says

The values that a segment leads to are the running values plus its differences, as exact integers
(`Running.advance`). `faults` lists the checks that these values fail, in the order in which they
count, and `Entry.ofValues` is the entry of values that pass. Reading a segment is no more than
this: the first fault, or the entry (`read_eq_ok_iff`, `read_eq_error_iff`). What segments spell may
be kept or parsed again (`readAll_eq`).

Writing an entry as differences and reading them again gives the entry back (`read_write`).
-/

set_option autoImplicit false

namespace SourceMap

/-! ## Integers that are coordinates -/

namespace Coordinate

/-- Whether an integer is the value of a word. -/
def InRange (n : Int) : Prop := 0 ≤ n ∧ n < UInt32.size

instance (n : Int) : Decidable (InRange n) :=
  inferInstanceAs (Decidable (0 ≤ n ∧ n < UInt32.size))

/-- The coordinate with a value in range. -/
def word (n : Int) : UInt32 := UInt32.ofNat n.toNat

theorem toNat_word {n : Int} (h : InRange n) : ((word n).toNat : Int) = n := by
  obtain ⟨hlo, hhi⟩ := h
  have hsize := size_eq
  rw [word, UInt32.toNat_ofNat']
  omega

@[simp] theorem word_toNat (w : UInt32) : word w.toNat = w := by
  rw [word, Int.toNat_natCast, UInt32.ofNat_toNat]

theorem inRange_toNat (w : UInt32) : InRange w.toNat :=
  ⟨Int.natCast_nonneg _, by exact_mod_cast w.toNat_lt⟩

theorem ofInt?_of_inRange {n : Int} (h : InRange n) : ofInt? n = some (word n) :=
  ofInt?_eq_some_iff.mpr (toNat_word h).symm

theorem ofInt?_of_not_inRange {n : Int} (h : ¬ InRange n) : ofInt? n = none := by
  rw [Option.eq_none_iff_forall_ne_some]
  intro w hw
  rw [ofInt?_eq_some_iff] at hw
  exact h (hw ▸ inRange_toNat w)

/-- The difference of two coordinates has 64 bits. -/
theorem fits_sub {a b : Int} (ha : InRange a) (hb : InRange b) : Vlq.fits (a - b) = true := by
  obtain ⟨halo, hahi⟩ := ha
  obtain ⟨hblo, hbhi⟩ := hb
  have hsize := size_eq
  simp only [Vlq.fits, Bool.and_eq_true, decide_eq_true_eq]
  omega

end Coordinate

open Coordinate

/-! ## Faults -/

/-- The error of a segment with a value that is no coordinate. -/
def Segment.overflow (text : List Char) : Error :=
  .outOfRange (.segment (String.ofList text))

/-- The fault of a value that is no coordinate. -/
def wordFaults (text : List Char) (value : Int) : List Error :=
  if InRange value then [] else [Segment.overflow text]

/-- The faults of a value that is no slot of a table with the given size. -/
def slotFaults (text : List Char) (value : Int) (size : Nat) (unknown : Nat → Error) :
    List Error :=
  wordFaults text value ++ if value < size then [] else [unknown value.toNat]

/-- The faults of the value of a name, if the segment has one. -/
def nameFaults (sizes : TableSizes) (text : List Char) (value : Int) : Option Int → List Error
  | none => []
  | some _ => slotFaults text value sizes.names .unknownName

/-- The faults of the values that lead to a place, in the order of the checks: the range of the
source, the source, the original line, the original column, the original line counted from 1, the
range of the name, the name. -/
def placeFaults (sizes : TableSizes) (text : List Char) (p : PlaceDelta) (v : Running) :
    List Error :=
  slotFaults text v.source sizes.sources .unknownSource ++
  (wordFaults text v.originalLine ++
  (wordFaults text v.originalColumn ++
  (wordFaults text (v.originalLine + 1) ++
  nameFaults sizes text v.name p.name)))

/-- The faults of the values that a segment leads to. The generated column is checked first. -/
def faults (sizes : TableSizes) (text : List Char) (d : Delta) (v : Running) : List Error :=
  wordFaults text v.column ++
  match d.place with
  | none => []
  | some p => placeFaults sizes text p v

theorem wordFaults_eq_nil_iff {text : List Char} {value : Int} :
    wordFaults text value = [] ↔ InRange value := by
  rw [wordFaults]
  split
  · simp [*]
  · simp [*]

theorem slotFaults_eq_nil_iff {text : List Char} {value : Int} {size : Nat}
    {unknown : Nat → Error} :
    slotFaults text value size unknown = [] ↔ InRange value ∧ value < size := by
  rw [slotFaults, List.append_eq_nil_iff, wordFaults_eq_nil_iff]
  simp

theorem nameFaults_eq_nil_iff {sizes : TableSizes} {text : List Char} {value : Int}
    {name : Option Int} :
    nameFaults sizes text value name = [] ↔
      (name.isSome = true → InRange value ∧ value < sizes.names) := by
  cases name with
  | none => simp [nameFaults]
  | some d =>
      rw [nameFaults, slotFaults_eq_nil_iff]
      simp

/-- The values that lead to a place have no fault just when they are coordinates, the original line
also when it counts from 1, and the slots are those of the tables. -/
theorem placeFaults_eq_nil_iff {sizes : TableSizes} {text : List Char} {p : PlaceDelta}
    {v : Running} :
    placeFaults sizes text p v = [] ↔
      (InRange v.source ∧ v.source < sizes.sources) ∧ InRange v.originalLine ∧
        InRange v.originalColumn ∧ InRange (v.originalLine + 1) ∧
        (p.name.isSome = true → InRange v.name ∧ v.name < sizes.names) := by
  simp only [placeFaults, List.append_eq_nil_iff, slotFaults_eq_nil_iff, wordFaults_eq_nil_iff,
    nameFaults_eq_nil_iff]

/-- The origin that the values `v` stand for. Original lines count from 1 in an origin and from 0
in a text. -/
def Origin.ofValues (p : PlaceDelta) (v : Running) : Origin where
  place :=
    { source := v.source.toNat
      position := { line := word (v.originalLine + 1), column := word v.originalColumn } }
  name := p.name.map fun _ => v.name.toNat

/-- The entry of a segment with the differences `d`, which lead to the values `v`. -/
def Entry.ofValues (d : Delta) (v : Running) : Entry where
  generated := { line := word v.line, column := word v.column }
  origin := d.place.map fun p => Origin.ofValues p v

/-- Whether an entry belongs to string tables of some sizes: lines count from 1, and slots are
those of the tables. -/
structure Entry.Fits (sizes : TableSizes) (e : Entry) : Prop where
  generatedLine : e.generated.line ≠ 0
  originalLine : ∀ o ∈ e.origin, o.place.position.line ≠ 0
  source : ∀ o ∈ e.origin, o.place.source < sizes.sources
  name : ∀ o ∈ e.origin, ∀ n ∈ o.name, n < sizes.names

/-- The slots of string tables of some sizes that have a number of 32 bits. -/
def TableSizes.capped (sizes : TableSizes) : TableSizes where
  sources := min sizes.sources UInt32.size
  names := min sizes.names UInt32.size

namespace Running

/-- The values that a segment of a line leads to. -/
def advance (r : Running) (line : Nat) (d : Delta) : Running :=
  let column := (r.enter line).column + d.column
  match d.place with
  | none => { r with line, column }
  | some p =>
    { line, column
      source := r.source + p.source
      originalLine := r.originalLine + p.line
      originalColumn := r.originalColumn + p.column
      name := r.name + p.name.getD 0 }

/-! ## Reading a segment -/

/-- The outcome of checks: the first of their faults, or a result where there are none. -/
def outcome {α : Type} (found : List Error) (a : α) : Except Error α :=
  match found with
  | [] => .ok a
  | e :: _ => .error e

@[simp] theorem outcome_nil {α : Type} (a : α) : outcome [] a = .ok a := rfl

theorem outcome_eq_ok_iff {α : Type} {found : List Error} {a b : α} :
    outcome found a = .ok b ↔ found = [] ∧ b = a := by
  cases found <;> simp [outcome, eq_comm]

theorem outcome_eq_error_iff {α : Type} {found : List Error} {a : α} {e : Error} :
    outcome found a = .error e ↔ found.head? = some e := by
  cases found <;> simp [outcome]

theorem coordinate_eq (text : List Char) (value : Int) :
    coordinate text value = outcome (wordFaults text value) (word value) := by
  unfold coordinate wordFaults
  by_cases h : InRange value
  · rw [ofInt?_of_inRange h, if_pos h]
    rfl
  · rw [ofInt?_of_not_inRange h, if_neg h]
    rfl

theorem readSlot_eq (text : List Char) (value : Int) (size : Nat) (unknown : Nat → Error) :
    readSlot text value size unknown =
      outcome (slotFaults text value size unknown) value.toNat := by
  rw [readSlot, coordinate_eq, slotFaults, wordFaults]
  by_cases h : InRange value
  · have hword : ((word value).toNat : Int) = value := toNat_word h
    have hnat : (word value).toNat = value.toNat := by omega
    rw [if_pos h]
    show (if (word value).toNat < size then _ else _) = _
    rw [hnat]
    by_cases hlt : value < size
    · rw [if_pos (by omega), if_pos hlt]
      rfl
    · rw [if_neg (by have := h.1; omega), if_neg hlt]
      rfl
  · rw [if_neg h]
    rfl

theorem readName_eq (r : Running) (sizes : TableSizes) (text : List Char) (name : Option Int) :
    r.readName sizes text name =
      outcome (nameFaults sizes text (r.name + name.getD 0) name)
        (name.map fun _ => (r.name + name.getD 0).toNat) := by
  cases name with
  | none => rfl
  | some d =>
      rw [readName, readSlot_eq, Option.getD_some, nameFaults]
      cases slotFaults text (r.name + d) sizes.names .unknownName <;> rfl

/-- The checks of an origin, one after the other. -/
theorem readOrigin_eq {r v : Running} (sizes : TableSizes) (text : List Char) {p : PlaceDelta}
    (hsource : v.source = r.source + p.source) (hline : v.originalLine = r.originalLine + p.line)
    (hcolumn : v.originalColumn = r.originalColumn + p.column)
    (hname : v.name = r.name + p.name.getD 0) :
    r.readOrigin sizes text p =
      outcome (placeFaults sizes text p v) (Origin.ofValues p v) := by
  rw [readOrigin, readSlot_eq, coordinate_eq, coordinate_eq, readName_eq, placeFaults,
    Origin.ofValues, ← hsource, ← hline, ← hcolumn, ← hname]
  cases slotFaults text v.source sizes.sources .unknownSource with
  | cons e es => rfl
  | nil =>
      rw [outcome_nil, ok_bind, List.nil_append]
      cases hl : wordFaults text v.originalLine with
      | cons e es => rfl
      | nil =>
          -- the line is in range, so the word that was read has its value
          have hword := toNat_word (wordFaults_eq_nil_iff.mp hl)
          rw [outcome_nil, ok_bind, List.nil_append, hword]
          cases wordFaults text v.originalColumn with
          | cons e es => rfl
          | nil =>
              rw [outcome_nil, ok_bind, List.nil_append, coordinate_eq]
              cases wordFaults text (v.originalLine + 1) with
              | cons e es => rfl
              | nil =>
                  rw [outcome_nil, ok_bind, List.nil_append]
                  cases nameFaults sizes text v.name p.name <;> rfl

theorem enter_source (r : Running) (line : Nat) :
    (r.enter line).source = r.source ∧ (r.enter line).originalLine = r.originalLine ∧
      (r.enter line).originalColumn = r.originalColumn ∧ (r.enter line).name = r.name := by
  unfold enter
  split
  · exact ⟨rfl, rfl, rfl, rfl⟩
  · exact ⟨rfl, rfl, rfl, rfl⟩

/-- **The checks of an entry.** Where the line is a coordinate, the outcome is that of the checks of
the values. -/
theorem resolve_eq {r : Running} {sizes : TableSizes} {s : Segment} (hline : InRange s.line)
    (d : Delta) :
    r.resolve sizes s d =
      outcome (faults sizes s.text d (r.advance s.line d))
        (Entry.ofValues d (r.advance s.line d)) := by
  have hcoord : coordinate s.text s.line = .ok (word s.line) := by
    rw [coordinate_eq, wordFaults_eq_nil_iff.mpr hline]
    rfl
  -- the line starts the column over, and leaves the values of the origin as they are
  obtain ⟨hsource, holine, hocolumn, hname⟩ := enter_source r s.line
  rw [resolve, hcoord, ok_bind, coordinate_eq, faults]
  obtain ⟨column, _ | p⟩ := d
  · show _ = outcome (wordFaults s.text ((r.enter s.line).column + column) ++ []) _
    cases wordFaults s.text ((r.enter s.line).column + column) <;> rfl
  · have horigin := readOrigin_eq (r := r.enter s.line) (v := r.advance s.line ⟨column, some p⟩)
      sizes s.text (p := p) (by rw [hsource]; rfl) (by rw [holine]; rfl) (by rw [hocolumn]; rfl)
      (by rw [hname]; rfl)
    show _ = outcome (wordFaults s.text ((r.enter s.line).column + column) ++
      placeFaults sizes s.text p (r.advance s.line ⟨column, some p⟩)) _
    simp only [horigin]
    cases wordFaults s.text ((r.enter s.line).column + column) with
    | cons e es => rfl
    | nil => cases placeFaults sizes s.text p (r.advance s.line ⟨column, some p⟩) <;> rfl

/-- The entry of a segment, whose text is parsed. -/
def read (r : Running) (sizes : TableSizes) (s : Segment) : Except Error Entry := do
  let d ← Delta.parse s.text
  r.resolve sizes s d

/-- The entries of segments, each of which is parsed. -/
def readEach (sizes : TableSizes) (r : Running) (found : List Entry) :
    List Segment → Except Error (List Entry)
  | [] => .ok found.reverse
  | s :: ss =>
    match r.read sizes s with
    | .error e => .error e
    | .ok e => readEach sizes (r.after e) (e :: found) ss

/-- **A memo makes no difference.** Segments are read as if each of them were parsed, whatever has
been kept of the texts before. -/
theorem readAll_eq (sizes : TableSizes) (ss : List Segment) :
    ∀ (memo : Memo) (r : Running) (found : List Entry),
      readAll sizes memo r found ss = readEach sizes r found ss := by
  induction ss with
  | nil =>
      intro memo r found
      rfl
  | cons s ss ih =>
      intro memo r found
      -- the memo may change from one segment to the next, so it is left general
      have hparse := memo.fst_parse s.text
      rw [readAll, readEach, read, ← hparse]
      cases memo.parse s.text with
      | error e => rfl
      | ok known =>
          obtain ⟨d, memo'⟩ := known
          rw [ok_map, ok_bind]
          cases hresolve : r.resolve sizes s d with
          | error e => simp only [hresolve]
          | ok e =>
              simp only [hresolve]
              exact ih memo' (r.after e) (e :: found)

/-- A segment gives an entry just when it spells differences that lead to no fault. -/
theorem read_eq_ok_iff {r : Running} {sizes : TableSizes} {s : Segment} (hline : InRange s.line)
    {e : Entry} :
    r.read sizes s = .ok e ↔ ∃ d, Delta.parse s.text = .ok d ∧
      faults sizes s.text d (r.advance s.line d) = [] ∧
      e = Entry.ofValues d (r.advance s.line d) := by
  rw [read, bind_eq_ok_iff]
  simp only [resolve_eq hline, outcome_eq_ok_iff]

/-- A segment gives an error just when it is misspelt or its values have a fault, the first of which
counts. -/
theorem read_eq_error_iff {r : Running} {sizes : TableSizes} {s : Segment}
    (hline : InRange s.line) {e : Error} :
    r.read sizes s = .error e ↔ Delta.parse s.text = .error e ∨
      ∃ d, Delta.parse s.text = .ok d ∧
        (faults sizes s.text d (r.advance s.line d)).head? = some e := by
  rw [read, bind_eq_error_iff]
  simp only [resolve_eq hline, outcome_eq_error_iff]

/-- An entry is read only from a line whose number is a coordinate. -/
theorem inRange_of_read {r : Running} {sizes : TableSizes} {s : Segment} {e : Entry}
    (h : r.read sizes s = .ok e) : InRange s.line := by
  obtain ⟨d, -, hrest⟩ := bind_eq_ok_iff.mp h
  obtain ⟨line, hline, -⟩ := bind_eq_ok_iff.mp hrest
  rw [coordinate_eq, outcome_eq_ok_iff] at hline
  exact wordFaults_eq_nil_iff.mp hline.1

/-! ## Values without faults -/

/-- Values without faults lead to an entry that belongs to the tables. -/
theorem fits_ofValues {sizes : TableSizes} {text : List Char} {d : Delta} {v : Running}
    (hfaults : faults sizes text d v = []) (hpos : v.line ≠ 0) (hline : InRange v.line) :
    (Entry.ofValues d v).Fits sizes := by
  have hgenerated : word v.line ≠ 0 := by
    intro h
    have hword := toNat_word hline
    rw [h] at hword
    exact hpos (Int.natCast_eq_zero.mp hword.symm)
  obtain ⟨column, _ | p⟩ := d
  · refine ⟨hgenerated, ?_, ?_, ?_⟩
    · rintro o ⟨⟩
    · rintro o ⟨⟩
    · rintro o ⟨⟩
  · obtain ⟨-, hplace⟩ := List.append_eq_nil_iff.mp hfaults
    obtain ⟨⟨hsource, hlt⟩, holine, -, holine', hname⟩ := placeFaults_eq_nil_iff.mp hplace
    refine ⟨hgenerated, ?_, ?_, ?_⟩
    · rintro _ ⟨⟩ h
      -- a line that counts from 0 is not `-1`, so counted from 1 it is not 0
      have hword := toNat_word holine'
      have hzero : word (v.originalLine + 1) = 0 := h
      rw [hzero, UInt32.toNat_zero] at hword
      have hnonneg := holine.1
      omega
    · rintro _ ⟨⟩
      have hnonneg := hsource.1
      show v.source.toNat < sizes.sources
      omega
    · rintro _ ⟨⟩ n hn
      obtain ⟨pname, hpname, rfl⟩ := Option.map_eq_some_iff.mp hn
      obtain ⟨hrange, hlt'⟩ := hname (by rw [hpname]; rfl)
      have hnonneg := hrange.1
      omega

/-- **An entry that is read belongs to the tables.** -/
theorem fits_of_read {r : Running} {sizes : TableSizes} {s : Segment} {e : Entry}
    (hpos : s.line ≠ 0) (h : r.read sizes s = .ok e) : e.Fits sizes := by
  have hline := inRange_of_read h
  obtain ⟨d, -, hfaults, rfl⟩ := (read_eq_ok_iff hline).mp h
  have hadvance : (r.advance s.line d).line = s.line := by
    unfold advance
    split
    · rfl
    · rfl
  refine fits_ofValues hfaults ?_ ?_
  · rw [hadvance]
    exact hpos
  · rw [hadvance]
    exact hline

theorem faults_capped {sizes : TableSizes} {text : List Char} {d : Delta} {v : Running}
    (h : faults sizes text d v = []) : faults sizes.capped text d v = [] := by
  obtain ⟨column, _ | p⟩ := d
  · exact h
  · simp only [faults, List.append_eq_nil_iff, placeFaults_eq_nil_iff, InRange,
      TableSizes.capped] at h ⊢
    obtain ⟨hcolumn, ⟨hsource, hlt⟩, hline, horiginal, hline', hname⟩ := h
    refine ⟨hcolumn, ⟨hsource, by omega⟩, hline, horiginal, hline', fun hsome => ?_⟩
    have hrange := hname hsome
    omega

/-- **A slot that is read has a number of 32 bits**, however large the tables are. -/
theorem read_capped {r : Running} {sizes : TableSizes} {s : Segment} {e : Entry}
    (h : r.read sizes s = .ok e) : r.read sizes.capped s = .ok e := by
  have hline := inRange_of_read h
  obtain ⟨d, hd, hfaults, rfl⟩ := (read_eq_ok_iff hline).mp h
  exact (read_eq_ok_iff hline).mpr ⟨d, hd, faults_capped hfaults, rfl⟩

/-! ## Writing and reading an entry -/

/-- Values that are coordinates. -/
structure Bounded (r : Running) : Prop where
  column : InRange r.column
  source : InRange r.source
  originalLine : InRange r.originalLine
  originalColumn : InRange r.originalColumn
  name : InRange r.name

theorem bounded_start : Bounded {} := by
  constructor <;> decide

theorem Bounded.enter {r : Running} (h : r.Bounded) (line : Nat) : (r.enter line).Bounded := by
  unfold Running.enter
  split
  · exact h
  · exact { h with column := bounded_start.column }

/-- A slot of a table with no more slots than there are words is a coordinate. -/
theorem inRange_slot {slot size : Nat} (h : slot < size) (hsize : size ≤ UInt32.size) :
    InRange slot := by
  refine ⟨Int.natCast_nonneg _, ?_⟩
  omega

/-- A line that counts from 1 is a coordinate when it counts from 0. -/
theorem inRange_line {w : UInt32} (h : w ≠ 0) : InRange ((w.toNat : Int) - 1) := by
  have hpos : w.toNat ≠ 0 := fun h0 => h (UInt32.toNat_inj.mp h0)
  have hlt := w.toNat_lt_size
  refine ⟨?_, ?_⟩ <;> omega

section

variable {sizes : TableSizes} {r : Running} {e : Entry}

/-- The values that an entry leaves behind are coordinates. -/
theorem Bounded.after (hr : r.Bounded) (he : e.Fits sizes) (hsources : sizes.sources ≤ UInt32.size)
    (hnames : sizes.names ≤ UInt32.size) : (r.after e).Bounded := by
  obtain ⟨generated, _ | ⟨place, _ | n⟩, last⟩ := e
  · exact { hr with column := inRange_toNat _ }
  · exact
      { column := inRange_toNat _
        source := inRange_slot (he.source _ rfl) hsources
        originalLine := inRange_line (he.originalLine _ rfl)
        originalColumn := inRange_toNat _
        name := hr.name }
  · exact
      { column := inRange_toNat _
        source := inRange_slot (he.source _ rfl) hsources
        originalLine := inRange_line (he.originalLine _ rfl)
        originalColumn := inRange_toNat _
        name := inRange_slot (he.name _ rfl n rfl) hnames }

/-- The differences to an entry lead to the values that it leaves behind. -/
theorem advance_delta (r : Running) (e : Entry) :
    r.advance e.generated.line.toNat ((r.enter e.generated.line.toNat).delta e) = r.after e := by
  obtain ⟨hsource, holine, hocolumn, hname⟩ := enter_source r e.generated.line.toNat
  obtain ⟨generated, _ | ⟨place, _ | n⟩, last⟩ := e
  · simp [advance, delta, after]
  · simp [advance, delta, after, hsource, holine, hocolumn]
  · simp [advance, delta, after, hsource, holine, hocolumn, hname]

/-- The differences between coordinates can be written. -/
theorem fits_of_mem_numbers_delta (hr : r.Bounded) (hafter : (r.after e).Bounded) {v : Int}
    (hv : v ∈ (r.delta e).numbers) : Vlq.fits v = true := by
  obtain ⟨generated, _ | ⟨place, name⟩, last⟩ := e
  · have hv' : v ∈ [generated.column.toNat - r.column] := hv
    rw [List.mem_singleton.mp hv']
    exact fits_sub hafter.column hr.column
  · simp only [delta, Delta.numbers, Option.map_some, List.mem_cons, Option.mem_toList] at hv
    rcases hv with rfl | rfl | rfl | rfl | hname
    · exact fits_sub hafter.column hr.column
    · exact fits_sub hafter.source hr.source
    · exact fits_sub hafter.originalLine hr.originalLine
    · exact fits_sub hafter.originalColumn hr.originalColumn
    · -- only an entry with a name has a fifth number
      obtain ⟨n, rfl, rfl⟩ := Option.map_eq_some_iff.mp hname
      exact fits_sub hafter.name hr.name

/-- The values that an entry leaves behind have no fault, whatever differences lead to them. -/
theorem faults_after (he : e.Fits sizes) (hafter : (r.after e).Bounded) (text : List Char)
    (r' : Running) : faults sizes text (r'.delta e) (r.after e) = [] := by
  rw [faults, wordFaults_eq_nil_iff.mpr hafter.column, List.nil_append]
  obtain ⟨generated, _ | ⟨place, name⟩, last⟩ := e
  · rfl
  · -- the original line counts from 1 again, as it does in the entry
    have hline : (r.after ⟨generated, some ⟨place, name⟩, last⟩).originalLine + 1 =
        place.position.line.toNat := sub_add_cancel _ _
    have hsource := he.source _ rfl
    refine placeFaults_eq_nil_iff.mpr
      ⟨⟨hafter.source, Int.ofNat_lt.mpr hsource⟩, hafter.originalLine, hafter.originalColumn, ?_,
        ?_⟩
    · rw [hline]
      exact inRange_toNat _
    · intro hsome
      refine ⟨hafter.name, ?_⟩
      cases name with
      | none => cases hsome
      | some n => exact Int.ofNat_lt.mpr (he.name _ rfl n rfl)

/-- The values that an entry leaves behind are those that it stands for. -/
theorem ofValues_after (hlast : e.lastColumn = none) (r r' : Running) :
    Entry.ofValues (r'.delta e) (r.after e) = e := by
  obtain ⟨⟨line, column⟩, _ | ⟨⟨source, ⟨oline, ocolumn⟩⟩, _ | n⟩, last⟩ := e
  · simp [Entry.ofValues, delta, after, hlast.symm]
  · simp [Entry.ofValues, Origin.ofValues, delta, after, hlast.symm]
  · simp [Entry.ofValues, Origin.ofValues, delta, after, hlast.symm]

/-- **An entry that is written is read back**, wherever the running values stand. -/
theorem read_write (hr : r.Bounded) (he : e.Fits sizes) (hlast : e.lastColumn = none)
    (hsources : sizes.sources ≤ UInt32.size) (hnames : sizes.names ≤ UInt32.size) :
    r.read sizes
      { line := e.generated.line.toNat
        text := ((r.enter e.generated.line.toNat).delta e).write } = .ok e := by
  have henter := hr.enter e.generated.line.toNat
  have hparse := Delta.parse_write fun v hv =>
    fits_of_mem_numbers_delta henter (henter.after he hsources hnames) hv
  refine (read_eq_ok_iff (inRange_toNat _)).mpr ⟨_, hparse, ?_, ?_⟩
  · rw [advance_delta]
    exact faults_after he (hr.after he hsources hnames) _ _
  · rw [advance_delta, ofValues_after hlast]

end

end Running

end SourceMap

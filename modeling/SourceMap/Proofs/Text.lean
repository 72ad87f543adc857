import Mathlib
import SourceMap.Mappings.Text
import SourceMap.Proofs.Running
import SourceMap.Proofs.Table

/-!
# Texts written and read

The text of entries that are in the order of their lines is split into one segment for each entry
(`split_encodeAll`), and reading the segments gives the entries back (`decodeAll_encodeAll`).
The writer and the reader keep the same running values, so that both arguments go from one entry to
the next with the values left general.
-/

set_option autoImplicit false

namespace SourceMap

namespace Segment

/-! ## Scanning what is written -/

/-- Characters that do not separate are added to the current segment. -/
theorem scan_append {w : List Char} (h : ∀ c ∈ w, c ≠ ';' ∧ c ≠ ',') (line : Nat)
    (piece : List Char) (found : List Segment) (rest : List Char) :
    scan line piece found (w ++ rest) = scan line (w.reverse ++ piece) found rest := by
  induction w generalizing piece with
  | nil => rfl
  | cons c w ih =>
      obtain ⟨hs, hc⟩ := h c List.mem_cons_self
      rw [List.cons_append, scan, if_neg hs, if_neg hc,
        ih (fun d hd => h d (List.mem_cons_of_mem c hd)), List.reverse_cons, List.append_assoc]
      rfl

/-- Semicolons end as many lines. -/
theorem scan_replicate (count line : Nat) (found : List Segment) (rest : List Char) :
    scan line [] found (List.replicate count ';' ++ rest) = scan (line + count) [] found rest := by
  induction count generalizing line with
  | zero => rfl
  | succ count ih =>
      rw [List.replicate_succ, List.cons_append, scan, if_pos rfl]
      show scan (line + 1) [] found (List.replicate count ';' ++ rest) = _
      rw [ih (line + 1), Nat.add_assoc, Nat.add_comm 1 count]

/-- What stands before the segment of an entry completes the segment before it and leads to the
line of the entry. The first entry has no segment before it. -/
theorem scan_separator {r : Running} {e : Entry} {first : Bool} {piece : List Char}
    (hline : r.line ≤ e.generated.line.toNat) (hfirst : first = true → piece = [])
    (found : List Segment) (rest : List Char) :
    scan r.line piece found (r.separator first e ++ rest) =
      scan e.generated.line.toNat [] (push r.line piece found) rest := by
  unfold Running.separator
  by_cases hsame : e.generated.line.toNat = r.line
  · rw [if_pos hsame, hsame]
    cases first with
    | true =>
        rw [hfirst rfl]
        rfl
    | false => rfl
  · -- at least one line has passed, so the first semicolon ends the segment before
    obtain ⟨count, hcount⟩ : ∃ count, e.generated.line.toNat = r.line + 1 + count :=
      ⟨e.generated.line.toNat - r.line - 1, by omega⟩
    have hpassed : r.line + 1 + count - r.line = count + 1 := by omega
    rw [if_neg hsame, hcount, hpassed, List.replicate_succ, List.cons_append, scan, if_pos rfl]
    exact scan_replicate count (r.line + 1) _ rest

/-- A piece that is not empty is a segment. -/
theorem push_of_ne_nil {line : Nat} {piece : List Char} (h : piece ≠ []) (found : List Segment) :
    push line piece.reverse found = { line, text := piece } :: found := by
  cases piece with
  | nil => exact absurd rfl h
  | cons c piece => simp [push]

end Segment

namespace Entry

open Segment

/-! ## Splitting what is written -/

/-- The segments of entries, when the values before them are given. -/
def segments (r : Running) : List Entry → List Segment
  | [] => []
  | e :: es =>
    { line := e.generated.line.toNat, text := ((r.enter e.generated.line.toNat).delta e).write } ::
      segments (r.after e) es

/-- Scanning a draft has found some segments, of which the last may still go on. -/
def Draft.Holds (d : Draft) (ss : List Segment) : Prop :=
  ∃ piece found, push d.running.line piece found = ss.reverse ∧ (d.first = true → piece = []) ∧
    ∀ rest, scan 1 [] [] (d.text.toList ++ rest) = scan d.running.line piece found rest

theorem Draft.holds_empty : Draft.Holds {} [] :=
  ⟨[], [], rfl, fun _ => rfl, fun _ => rfl⟩

/-- The line of the running values is that of the last entry. -/
theorem line_after (r : Running) (e : Entry) : (r.after e).line = e.generated.line.toNat := by
  unfold Running.after
  split
  · rfl
  · rfl

/-- **Writing one more entry adds its segment.** -/
theorem Draft.Holds.write {d : Draft} {ss : List Segment} (h : d.Holds ss) {e : Entry}
    (hline : d.running.line ≤ e.generated.line.toNat) :
    (d.write e).Holds (ss ++ segments d.running [e]) := by
  obtain ⟨piece, found, hpush, hfirst, hscan⟩ := h
  -- the segment before is complete, and the new one may still go on
  set word := ((d.running.enter e.generated.line.toNat).delta e).write with hword
  refine ⟨word.reverse, ss.reverse, ?_, ?_, ?_⟩
  · show push (d.running.after e).line word.reverse ss.reverse = _
    rw [line_after, push_of_ne_nil (Delta.write_ne_nil _), List.reverse_append]
    rfl
  · intro hd
    cases hd
  · intro rest
    show scan 1 [] [] ((d.text ++ String.ofList (d.running.separator d.first e ++ word)).toList ++
      rest) = scan (d.running.after e).line word.reverse ss.reverse rest
    rw [String.toList_append, String.toList_ofList, List.append_assoc, List.append_assoc, hscan,
      scan_separator hline hfirst, hpush,
      scan_append (fun c hc => Delta.ne_separator_of_mem_write hc),
      List.append_nil, line_after]

/-- Writing entries in the order of their lines adds their segments. -/
theorem Draft.Holds.foldl_write (es : List Entry) :
    ∀ {d : Draft} {ss : List Segment}, d.Holds ss →
      (∀ e ∈ es, d.running.line ≤ e.generated.line.toNat) →
      es.Pairwise (fun a b => a.generated.line ≤ b.generated.line) →
      (es.foldl Draft.write d).Holds (ss ++ segments d.running es) := by
  induction es with
  | nil =>
      intro d ss h _ _
      rw [segments, List.append_nil]
      exact h
  | cons e es ih =>
      intro d ss h hlines hsorted
      obtain ⟨hhead, htail⟩ := List.pairwise_cons.mp hsorted
      have hnext := ih (h.write (hlines e List.mem_cons_self)) (fun a ha => by
        show (d.running.after e).line ≤ a.generated.line.toNat
        rw [line_after]
        exact UInt32.le_iff_toNat_le.mp (hhead a ha)) htail
      rw [List.append_assoc] at hnext
      exact hnext

/-- **The text of entries has one segment for each of them.** -/
theorem split_encodeAll {es : List Entry} (hlines : ∀ e ∈ es, e.generated.line ≠ 0)
    (hsorted : es.Pairwise fun a b => a.generated.line ≤ b.generated.line) :
    split (encodeAll es).toList = segments {} es := by
  -- the writer starts on line 1, and no entry is before it
  have hstart : ∀ e ∈ es, ({} : Running).line ≤ e.generated.line.toNat := by
    intro e he
    show 1 ≤ e.generated.line.toNat
    have hne : e.generated.line.toNat ≠ 0 := fun h => hlines e he (UInt32.toNat_inj.mp h)
    omega
  obtain ⟨piece, found, hpush, -, hscan⟩ := Draft.holds_empty.foldl_write es hstart hsorted
  have hend := hscan []
  rw [List.append_nil] at hend
  show scan 1 [] [] (es.foldl Draft.write {}).text.toList = _
  rw [hend, scan, hpush, List.reverse_reverse]
  rfl

/-! ## Reading what is written -/

/-- A text is read as if each of its segments were parsed. -/
theorem decodeAll_eq (text : String) (sizes : TableSizes) :
    decodeAll text sizes = Running.readEach sizes {} [] (split text.toList) :=
  Running.readAll_eq sizes _ _ _ _

/-- Reading the segments of entries gives the entries, wherever the running values stand. -/
theorem readEach_segments {sizes : TableSizes} (hsources : sizes.sources ≤ UInt32.size)
    (hnames : sizes.names ≤ UInt32.size) (es : List Entry) :
    ∀ (r : Running) (found : List Entry), r.Bounded → (∀ e ∈ es, e.Fits sizes) →
      (∀ e ∈ es, e.lastColumn = none) →
      Running.readEach sizes r found (segments r es) = .ok (found.reverse ++ es) := by
  induction es with
  | nil =>
      intro r found _ _ _
      rw [segments, Running.readEach, List.append_nil]
  | cons e es ih =>
      intro r found hr hfits hlast
      have he := hfits e List.mem_cons_self
      rw [segments, Running.readEach,
        Running.read_write hr he (hlast e List.mem_cons_self) hsources hnames]
      show Running.readEach sizes (r.after e) (e :: found) (segments (r.after e) es) = _
      rw [ih _ _ (hr.after he hsources hnames) (fun a ha => hfits a (List.mem_cons_of_mem e ha))
        (fun a ha => hlast a (List.mem_cons_of_mem e ha)), List.reverse_cons, List.append_assoc]
      rfl

/-- **Entries that are written as a text are read back from it**, if they are in the order of their
lines and belong to the tables. -/
theorem decodeAll_encodeAll {es : List Entry} {sizes : TableSizes}
    (hsources : sizes.sources ≤ UInt32.size) (hnames : sizes.names ≤ UInt32.size)
    (hsorted : es.Pairwise fun a b => a.generated.line ≤ b.generated.line)
    (hfits : ∀ e ∈ es, e.Fits sizes) (hlast : ∀ e ∈ es, e.lastColumn = none) :
    decodeAll (encodeAll es) sizes = .ok es := by
  rw [decodeAll_eq, split_encodeAll (fun e he => (hfits e he).generatedLine) hsorted]
  exact readEach_segments hsources hnames es {} [] Running.bounded_start hfits hlast

/-! ## What is read -/

/-- The entries that are read come one from each segment. -/
theorem mem_of_readEach {sizes : TableSizes} {ss : List Segment} {e : Entry} :
    ∀ {r : Running} {found es : List Entry}, Running.readEach sizes r found ss = .ok es → e ∈ es →
      e ∈ found ∨ ∃ r, ∃ s ∈ ss, Running.read r sizes s = .ok e := by
  induction ss with
  | nil =>
      intro r found es h he
      cases h
      exact Or.inl (List.mem_reverse.mp he)
  | cons s ss ih =>
      intro r found es h he
      rw [Running.readEach] at h
      split at h
      · cases h
      · rename_i a ha
        rcases ih h he with hfound | ⟨r', s', hs', hread⟩
        · rcases List.mem_cons.mp hfound with rfl | hfound
          · exact Or.inr ⟨r, s, List.mem_cons_self, ha⟩
          · exact Or.inl hfound
        · exact Or.inr ⟨r', s', List.mem_cons_of_mem s hs', hread⟩

/-- A text is split into its pieces. -/
theorem split_eq_pieces (text : List Char) : split text = pieces text := by
  rw [split, scan_eq_pieces text 1 [] [] List.not_mem_nil List.not_mem_nil]
  rfl

/-- An entry of a text is read from a piece of it. -/
theorem exists_read_of_mem_decodeAll {text : String} {sizes : TableSizes} {es : List Entry}
    (h : decodeAll text sizes = .ok es) {e : Entry} (he : e ∈ es) :
    ∃ (r : Running) (s : Segment), s.line ≠ 0 ∧ r.read sizes s = .ok e := by
  rw [decodeAll_eq] at h
  rcases mem_of_readEach h he with hfound | ⟨r, s, hs, hread⟩
  · cases hfound
  · rw [split_eq_pieces] at hs
    have hline := line_of_mem_pieces hs
    exact ⟨r, s, by omega, hread⟩

/-- **The entries of a text belong to the tables that it was read for.** -/
theorem fits_of_mem_decodeAll {text : String} {sizes : TableSizes} {es : List Entry}
    (h : decodeAll text sizes = .ok es) {e : Entry} (he : e ∈ es) : e.Fits sizes := by
  obtain ⟨r, s, hline, hread⟩ := exists_read_of_mem_decodeAll h he
  exact Running.fits_of_read hline hread

/-- The entries of a text have no spans. -/
theorem lastColumn_of_mem_decodeAll {text : String} {sizes : TableSizes} {es : List Entry}
    (h : decodeAll text sizes = .ok es) {e : Entry} (he : e ∈ es) : e.lastColumn = none := by
  obtain ⟨r, s, -, hread⟩ := exists_read_of_mem_decodeAll h he
  obtain ⟨d, -, -, rfl⟩ := (Running.read_eq_ok_iff (Running.inRange_of_read hread)).mp hread
  obtain ⟨column, _ | place⟩ := d
  · rfl
  · rfl

end Entry

/-- The entries of a table that was decoded belong to the string tables. -/
theorem MappingTable.fits_of_decode {text : String} {sizes : TableSizes} {t : MappingTable}
    (h : decode text sizes = .ok t) {e : Entry} (he : e ∈ t.generated.toList) : e.Fits sizes := by
  obtain ⟨es, hes, rfl⟩ := map_eq_ok_iff.mp h
  exact Entry.fits_of_mem_decodeAll hes ((Entry.perm_sortGenerated es).mem_iff.mp he)

/-- The entries of a table that was decoded have slots of 32 bits. -/
theorem MappingTable.fits_capped_of_decode {text : String} {sizes : TableSizes} {t : MappingTable}
    (h : decode text sizes = .ok t) {e : Entry} (he : e ∈ t.generated.toList) :
    e.Fits sizes.capped := by
  obtain ⟨es, hes, rfl⟩ := map_eq_ok_iff.mp h
  obtain ⟨r, s, hline, hread⟩ :=
    Entry.exists_read_of_mem_decodeAll hes ((Entry.perm_sortGenerated es).mem_iff.mp he)
  exact Running.fits_of_read hline (Running.read_capped hread)

end SourceMap

import Mathlib
import SourceMap.Mappings.Segment
import SourceMap.Proofs.Except
import SourceMap.Proofs.Vlq

/-!
# Segments found and segments spelled

`Segment.pieces` is the plain reading of a text: split it at semicolons into lines, split each line
at commas, and keep the pieces that are not empty. The scanner finds the same segments in one pass
(`scan_eq_pieces`).

`Quantities text vs rest` says that a text starts with the quantities of `vs`, which `rest` follows.
A segment that spells differences is one that consists of their quantities (`parse_eq_ok_iff`), and
`Misspelt` gives the error of every other text (`parse_eq_error_iff`).
-/

set_option autoImplicit false

namespace SourceMap

namespace Segment

/-! ## The plain reading -/

/-- The pieces of a line that are not empty, as segments of that line. -/
def piecesOfLine (part : List Char × Nat) : List Segment :=
  ((part.1.splitOn ',').filter (· ≠ [])).map (Segment.mk part.2)

/-- The pieces of a text whose first line has the given number. -/
def piecesFrom (line : Nat) (text : List Char) : List Segment :=
  ((text.splitOn ';').zipIdx line).flatMap piecesOfLine

/-- The segments of a text: the pieces between commas of the parts between semicolons, without the
empty ones. Lines count from 1. -/
def pieces (text : List Char) : List Segment :=
  piecesFrom 1 text

/-- Characters that do not separate stay at the front of the first part. -/
theorem splitOn_append_of_not_mem {w : List Char} {sep : Char} (h : sep ∉ w) (cs : List Char) :
    (w ++ cs).splitOn sep = (cs.splitOn sep).modifyHead (w ++ ·) := by
  induction w with
  | nil =>
      show cs.splitOn sep = (cs.splitOn sep).modifyHead ([] ++ ·)
      cases cs.splitOn sep <;> rfl
  | cons c w ih =>
      rw [List.mem_cons, not_or] at h
      obtain ⟨hc, hw⟩ := h
      rw [List.cons_append, List.splitOn_cons_eq_if_modifyHead, ih hw,
        if_neg (by simpa using Ne.symm hc), List.modifyHead_modifyHead]
      rfl

/-- A part without commas is one piece, unless it is empty. -/
theorem piecesOfLine_of_not_mem {w : List Char} (h : ',' ∉ w) (line : Nat) :
    piecesOfLine (w, line) = (push line w.reverse []).reverse := by
  rw [piecesOfLine, List.splitOn_eq_singleton h]
  cases w with
  | nil => rfl
  | cons c w => simp [push]

/-- What stands before a comma is a piece of its own. -/
theorem piecesOfLine_append_comma {w : List Char} (h : ',' ∉ w) (cs : List Char) (line : Nat) :
    piecesOfLine (w ++ ',' :: cs, line) =
      (push line w.reverse []).reverse ++ piecesOfLine (cs, line) := by
  rw [← piecesOfLine_of_not_mem h]
  simp only [piecesOfLine, List.splitOn_append_cons_self_of_not_mem h, List.splitOn_eq_singleton h,
    List.filter_cons, List.filter_nil]
  split
  · rfl
  · rfl

/-- A piece goes before the segments that have been found. -/
theorem push_eq_append (line : Nat) (piece : List Char) (found : List Segment) :
    push line piece found = push line piece [] ++ found := by
  unfold push
  split
  · rfl
  · rfl

/-- **One pass finds the pieces.** The part of a segment that has been seen counts as if it stood
before the rest of the text. -/
theorem scan_eq_pieces (cs : List Char) :
    ∀ (line : Nat) (piece : List Char) (found : List Segment), ';' ∉ piece → ',' ∉ piece →
      scan line piece found cs = found.reverse ++ piecesFrom line (piece.reverse ++ cs) := by
  induction cs with
  | nil =>
      intro line piece found hs hc
      -- the text is at its end, and so is the last segment
      rw [scan, push_eq_append, List.reverse_append, List.append_nil, piecesFrom,
        List.splitOn_eq_singleton (by simpa using hs)]
      congr 1
      have hline := piecesOfLine_of_not_mem (w := piece.reverse) (by simpa using hc) line
      rw [List.reverse_reverse] at hline
      simp [hline]
  | cons c cs ih =>
      intro line piece found hs hc
      have hs' : ';' ∉ piece.reverse := by simpa using hs
      have hc' : ',' ∉ piece.reverse := by simpa using hc
      rw [scan]
      by_cases h : c = ';'
      · -- the line ends, and its last piece is complete
        subst h
        rw [if_pos rfl, ih (line + 1) [] _ List.not_mem_nil List.not_mem_nil, push_eq_append,
          List.reverse_append, List.append_assoc, List.reverse_nil, List.nil_append, piecesFrom,
          piecesFrom, List.splitOn_append_cons_self_of_not_mem hs', List.zipIdx_cons,
          List.flatMap_cons, piecesOfLine_of_not_mem hc', List.reverse_reverse]
      · rw [if_neg h]
        by_cases h' : c = ','
        · -- the line goes on, so the piece belongs to the first part of the rest
          subst h'
          rw [if_pos rfl, ih line [] _ List.not_mem_nil List.not_mem_nil, push_eq_append,
            List.reverse_append, List.append_assoc, List.reverse_nil, List.nil_append, piecesFrom,
            piecesFrom, splitOn_append_of_not_mem hs', List.splitOn_cons_eq_if_modifyHead,
            if_neg (by decide)]
          obtain ⟨part, parts, hparts⟩ := List.exists_cons_of_ne_nil (List.splitOn_ne_nil ';' cs)
          rw [hparts]
          show _ = found.reverse ++ (piecesOfLine (piece.reverse ++ ',' :: part, line) ++
            (parts.zipIdx (line + 1)).flatMap piecesOfLine)
          rw [piecesOfLine_append_comma hc', List.reverse_reverse, List.append_assoc]
          rfl
        · -- the character moves from the rest of the text to the segment under way
          rw [if_neg h', ih line (c :: piece) found (by simp [Ne.symm h, hs])
            (by simp [Ne.symm h', hc]), List.reverse_cons, List.append_assoc]
          rfl

/-! ## Lines of the pieces -/

/-- There is one part more than there are separators. -/
theorem length_splitOn (sep : Char) (cs : List Char) :
    (cs.splitOn sep).length = cs.count sep + 1 := by
  induction cs with
  | nil => rfl
  | cons c cs ih =>
      rw [List.splitOn_cons_eq_if_modifyHead]
      by_cases h : c = sep
      · subst h
        simp [ih]
      · simp [h, ih]

theorem line_of_mem_piecesOfLine {part : List Char × Nat} {s : Segment}
    (h : s ∈ piecesOfLine part) : s.line = part.2 := by
  obtain ⟨text, -, rfl⟩ := List.mem_map.mp h
  rfl

/-- Pieces are on the lines that are counted for them, in order. -/
theorem lines_flatMap_zipIdx (parts : List (List Char)) :
    ∀ line : Nat, (∀ s ∈ (parts.zipIdx line).flatMap piecesOfLine,
        line ≤ s.line ∧ s.line < line + parts.length) ∧
      ((parts.zipIdx line).flatMap piecesOfLine).Pairwise (·.line ≤ ·.line) := by
  induction parts with
  | nil => intro line; simp
  | cons part parts ih =>
      intro line
      obtain ⟨hbounds, hsorted⟩ := ih (line + 1)
      rw [List.zipIdx_cons, List.flatMap_cons]
      refine ⟨?_, List.pairwise_append.mpr ⟨?_, hsorted, ?_⟩⟩
      · intro s hs
        rw [List.length_cons]
        rcases List.mem_append.mp hs with hs | hs
        · have hline : s.line = line := line_of_mem_piecesOfLine hs
          omega
        · have hline := hbounds s hs
          omega
      · refine List.pairwise_of_forall_mem_list fun s hs t ht => ?_
        rw [line_of_mem_piecesOfLine hs, line_of_mem_piecesOfLine ht]
      · intro s hs t ht
        have hline : s.line = line := line_of_mem_piecesOfLine hs
        have hline' := hbounds t ht
        omega

/-- Lines count from 1 up to one more than there are semicolons. -/
theorem line_of_mem_pieces {text : List Char} {s : Segment} (h : s ∈ pieces text) :
    1 ≤ s.line ∧ s.line ≤ 1 + text.count ';' := by
  have hline := (lines_flatMap_zipIdx (text.splitOn ';') 1).1 s h
  rw [length_splitOn] at hline
  omega

/-- The segments of a text are in the order of their lines. -/
theorem pairwise_pieces (text : List Char) : (pieces text).Pairwise (·.line ≤ ·.line) :=
  (lines_flatMap_zipIdx (text.splitOn ';') 1).2

/-! ## Quantities one after the other -/

/-- A text starts with the quantities of some values, and `last` is what follows them. -/
inductive Quantities : List Char → List Int → List Char → Prop
  | done (last : List Char) : Quantities last [] last
  | next {cs rest last : List Char} {v : Int} {vs : List Int} :
      Vlq.decode cs = .ok (v, rest) → Quantities rest vs last → Quantities cs (v :: vs) last

/-- There is no quantity in an empty text. -/
theorem Quantities.nil_iff {vs : List Int} {last : List Char} :
    Quantities [] vs last ↔ vs = [] ∧ last = [] := by
  constructor
  · intro h
    cases h with
    | done => exact ⟨rfl, rfl⟩
    | next hdecode _ => cases hdecode
  · rintro ⟨rfl, rfl⟩
    exact .done []

/-- What is written for some values is read as their quantities. -/
theorem Quantities.flatMap_encode {vs : List Int} (h : ∀ v ∈ vs, Vlq.fits v = true)
    (last : List Char) : Quantities (vs.flatMap Vlq.encode ++ last) vs last := by
  induction vs with
  | nil => exact .done last
  | cons v vs ih =>
      rw [List.flatMap_cons, List.append_assoc]
      exact .next (Vlq.decode_encode_append (h v List.mem_cons_self) _)
        (ih fun w hw => h w (List.mem_cons_of_mem v hw))

section

variable {whole : List Char} {room : Nat}

theorem quantities_nil (whole : List Char) (room : Nat) : quantities whole room [] = .ok [] := by
  cases room <;> rfl

/-- After a quantity that can be read the rest of the text counts. -/
theorem quantities_of_decode {c : Char} {cs rest : List Char} {v : Int}
    (h : Vlq.decode (c :: cs) = .ok (v, rest)) :
    quantities whole (room + 1) (c :: cs) = (quantities whole room rest).map (v :: ·) := by
  rw [quantities]
  simp only [h]
  cases quantities whole room rest <;> rfl

/-- A quantity that cannot be read gives its error. -/
theorem quantities_of_decode_error {c : Char} {cs : List Char} {e : Error}
    (h : Vlq.decode (c :: cs) = .error e) :
    quantities whole (room + 1) (c :: cs) = .error e := by
  rw [quantities]
  simp only [h]

/-- All of a text is read as quantities just when it consists of them and they are not too many. -/
theorem quantities_eq_ok_iff {cs : List Char} : ∀ {room : Nat} {vs : List Int},
    quantities whole room cs = .ok vs ↔ Quantities cs vs [] ∧ vs.length ≤ room := by
  intro room
  induction room generalizing cs with
  | zero =>
      intro vs
      cases cs with
      | nil =>
          simp only [quantities_nil, Quantities.nil_iff, Except.ok.injEq]
          grind
      | cons c cs =>
          -- there is no room for the quantity that would have to come
          rw [quantities]
          constructor
          · rintro ⟨⟩
          · rintro ⟨h, hlen⟩
            rw [List.length_eq_zero_iff.mp (Nat.le_zero.mp hlen)] at h
            cases h
  | succ room ih =>
      intro vs
      cases cs with
      | nil =>
          simp only [quantities_nil, Quantities.nil_iff, Except.ok.injEq]
          grind
      | cons c cs =>
          cases hdecode : Vlq.decode (c :: cs) with
          | error e =>
              rw [quantities_of_decode_error hdecode]
              constructor
              · rintro ⟨⟩
              · rintro ⟨h, -⟩
                cases h with
                | next h _ => rw [hdecode] at h; cases h
          | ok read =>
              obtain ⟨v, rest⟩ := read
              rw [quantities_of_decode hdecode, map_eq_ok_iff]
              constructor
              · rintro ⟨ws, hws, rfl⟩
                obtain ⟨hread, hlen⟩ := ih.mp hws
                exact ⟨.next hdecode hread, Nat.succ_le_succ hlen⟩
              · rintro ⟨h, hlen⟩
                cases h with
                | next h hread =>
                    rw [hdecode] at h
                    cases h
                    exact ⟨_, ih.mpr ⟨hread, Nat.le_of_succ_le_succ hlen⟩, rfl⟩

/-- Reading the quantities of a text stops where one cannot be read, or where one more would come
than there is room for. -/
inductive Stops (whole : List Char) (room : Nat) (cs : List Char) : Error → Prop
  | unreadable {vs : List Int} {last : List Char} {e : Error} :
      Quantities cs vs last → vs.length < room → last ≠ [] → Vlq.decode last = .error e →
      Stops whole room cs e
  | full {vs : List Int} {last : List Char} :
      Quantities cs vs last → vs.length = room → last ≠ [] → Stops whole room cs (malformed whole)

theorem not_stops_nil {e : Error} : ¬ Stops whole room [] e := by
  intro h
  cases h with
  | unreadable hread _ hlast _ => exact hlast (Quantities.nil_iff.mp hread).2
  | full hread _ hlast => exact hlast (Quantities.nil_iff.mp hread).2

/-- After a quantity that can be read, reading stops where it stops in the rest. -/
theorem stops_of_decode {c : Char} {cs rest : List Char} {v : Int} {e : Error}
    (h : Vlq.decode (c :: cs) = .ok (v, rest)) :
    Stops whole (room + 1) (c :: cs) e ↔ Stops whole room rest e := by
  constructor
  · intro hstops
    cases hstops with
    | unreadable hread hlt hlast he =>
        cases hread with
        | done => rw [h] at he; cases he
        | next h' hread =>
            rw [h] at h'
            cases h'
            exact .unreadable hread (Nat.lt_of_succ_lt_succ hlt) hlast he
    | full hread hlen hlast =>
        cases hread with
        | done => cases hlen
        | next h' hread =>
            -- one quantity has been read, and there is room for one less
            rw [h] at h'
            cases h'
            exact .full hread (Nat.succ.inj hlen) hlast
  · intro hstops
    cases hstops with
    | unreadable hread hlt hlast he =>
        exact .unreadable (.next h hread) (Nat.succ_lt_succ hlt) hlast he
    | full hread hlen hlast => exact .full (.next h hread) (congrArg (· + 1) hlen) hlast

/-- Where the next quantity cannot be read, reading stops at once. -/
theorem stops_of_decode_error {c : Char} {cs : List Char} {e e' : Error}
    (h : Vlq.decode (c :: cs) = .error e') : Stops whole (room + 1) (c :: cs) e ↔ e = e' := by
  constructor
  · intro hstops
    cases hstops with
    | unreadable hread _ _ he =>
        cases hread with
        | done => rw [h] at he; cases he; rfl
        | next h' _ => rw [h] at h'; cases h'
    | full hread hlen _ =>
        cases hread with
        | done => cases hlen
        | next h' _ => rw [h] at h'; cases h'
  · rintro rfl
    exact .unreadable (.done _) (Nat.succ_pos room) (List.cons_ne_nil c cs) h

/-- Reading quantities fails just where it stops. -/
theorem quantities_eq_error_iff {cs : List Char} {e : Error} : ∀ {room : Nat},
    quantities whole room cs = .error e ↔ Stops whole room cs e := by
  intro room
  induction room generalizing cs with
  | zero =>
      cases cs with
      | nil =>
          rw [quantities_nil]
          exact ⟨fun h => (nomatch h), fun h => absurd h not_stops_nil⟩
      | cons c cs =>
          rw [quantities, Except.error.injEq]
          constructor
          · rintro rfl
            exact .full (.done _) rfl (List.cons_ne_nil c cs)
          · intro h
            cases h with
            | unreadable _ hlt _ _ => exact absurd hlt (Nat.not_lt_zero _)
            | full => rfl
  | succ room ih =>
      cases cs with
      | nil =>
          rw [quantities_nil]
          exact ⟨fun h => (nomatch h), fun h => absurd h not_stops_nil⟩
      | cons c cs =>
          cases hdecode : Vlq.decode (c :: cs) with
          | error e' =>
              rw [quantities_of_decode_error hdecode, stops_of_decode_error hdecode,
                Except.error.injEq, eq_comm]
          | ok read =>
              obtain ⟨v, rest⟩ := read
              rw [quantities_of_decode hdecode, map_eq_error_iff, ih, stops_of_decode hdecode]

end

/-- The error of a text that is no segment: of the first five quantities one cannot be read, a
sixth would come, or their number is not one, four or five. -/
inductive Misspelt (text : List Char) : Error → Prop
  | stops {e : Error} : Stops text 5 text e → Misspelt text e
  | wrongCount {vs : List Int} :
      Quantities text vs [] → vs.length = 0 ∨ vs.length = 2 ∨ vs.length = 3 →
      Misspelt text (malformed text)

end Segment

/-! ## The differences that a segment spells -/

namespace Delta

open Segment

theorem eq_numbers_of_ofNumbers? {vs : List Int} {d : Delta} (h : ofNumbers? vs = some d) :
    vs = d.numbers := by
  unfold ofNumbers? at h
  split at h
  · cases h; rfl
  · cases h; rfl
  · cases h; rfl
  · cases h

theorem length_numbers (d : Delta) :
    d.numbers.length = 1 ∨ d.numbers.length = 4 ∨ d.numbers.length = 5 := by
  obtain ⟨column, _ | ⟨source, line, originalColumn, _ | name⟩⟩ := d
  · exact Or.inl rfl
  · exact Or.inr (Or.inl rfl)
  · exact Or.inr (Or.inr rfl)

/-- The numbers that belong to no segment are none, two, three, or more than five. -/
theorem ofNumbers?_eq_none_iff {vs : List Int} (h : vs.length ≤ 5) :
    ofNumbers? vs = none ↔ vs.length = 0 ∨ vs.length = 2 ∨ vs.length = 3 := by
  rcases vs with _ | ⟨a, _ | ⟨b, _ | ⟨c, _ | ⟨d, _ | ⟨e, _ | ⟨f, vs⟩⟩⟩⟩⟩⟩
  · simp [ofNumbers?]
  · simp [ofNumbers?]
  · simp [ofNumbers?]
  · simp [ofNumbers?]
  · simp [ofNumbers?]
  · simp [ofNumbers?]
  · simp only [List.length_cons] at h
    omega

/-- **A segment spells the differences of which it has the quantities.** -/
theorem parse_eq_ok_iff {text : List Char} {d : Delta} :
    parse text = .ok d ↔ Quantities text d.numbers [] := by
  have hcount := d.length_numbers
  unfold parse
  constructor
  · intro h
    split at h
    · cases h
    · rename_i vs hvs
      split at h
      · cases h
      · rename_i d' hd'
        cases h
        rw [← eq_numbers_of_ofNumbers? hd']
        exact (quantities_eq_ok_iff.mp hvs).1
  · intro h
    have hvs : quantities text 5 text = .ok d.numbers :=
      quantities_eq_ok_iff.mpr ⟨h, by omega⟩
    simp only [hvs, ofNumbers?_numbers]

/-- **Every other text has the error of what is misspelt in it.** -/
theorem parse_eq_error_iff {text : List Char} {e : Error} :
    parse text = .error e ↔ Misspelt text e := by
  unfold parse
  constructor
  · intro h
    split at h
    · rename_i e' he'
      cases h
      exact .stops (quantities_eq_error_iff.mp he')
    · rename_i vs hvs
      obtain ⟨hread, hlen⟩ := quantities_eq_ok_iff.mp hvs
      split at h
      · rename_i hnone
        cases h
        exact .wrongCount hread ((ofNumbers?_eq_none_iff hlen).mp hnone)
      · cases h
  · intro h
    cases h with
    | stops hstops =>
        have herr : quantities text 5 text = .error e := quantities_eq_error_iff.mpr hstops
        simp only [herr]
    | @wrongCount vs hread hcount =>
        have hlen : vs.length ≤ 5 := by omega
        have hvs : quantities text 5 text = .ok vs := quantities_eq_ok_iff.mpr ⟨hread, hlen⟩
        simp only [hvs, (ofNumbers?_eq_none_iff hlen).mpr hcount]

/-- Differences that are written are read back. -/
theorem parse_write {d : Delta} (h : ∀ v ∈ d.numbers, Vlq.fits v = true) :
    parse d.write = .ok d := by
  have hread := Quantities.flatMap_encode h []
  rw [List.append_nil] at hread
  exact parse_eq_ok_iff.mpr hread

/-- A segment is not empty. -/
theorem write_ne_nil (d : Delta) : d.write ≠ [] := by
  intro h
  rw [write, numbers, List.flatMap_cons, List.append_eq_nil_iff] at h
  exact Vlq.encode_ne_nil _ h.1

/-- No character of a segment separates segments. -/
theorem ne_separator_of_mem_write {d : Delta} {c : Char} (h : c ∈ d.write) :
    c ≠ ';' ∧ c ≠ ',' := by
  obtain ⟨v, -, hv⟩ := List.mem_flatMap.mp h
  exact Vlq.ne_separator_of_mem_encode hv

end Delta

end SourceMap

import Mathlib
import SourceMap.Proofs.Segment
import SourceMap.Proofs.Text

/-!
# Splitting in place

A machine splits a text by an index of bytes. It looks for the next byte that is a semicolon or a
comma, cuts the piece before it out of the text, and passes over empty pieces; its line counter is a
word, and goes up before the piece that the semicolon ends is handed out. The search for the bytes
is left open: it only has to tell all of them in order (`Splitter.Finds`).

`Splitter.next` has no outcome where the counter overflows or a piece would be cut inside of a
character. While a text has no more semicolons than lines have words this never happens, and what
the machine hands out are the segments of the text (`Splitter.collect_finds_pieces`). The proof goes
from one separator to the next one (`Segment.piecesInduction`): the machine stands behind a
separator (`Splitter.Stands`), and one cut takes it behind the next.
-/

set_option autoImplicit false

namespace SourceMap

/-! ## From one separator to the next -/

namespace Segment

/-- Whether a character separates segments. -/
def Separates (c : Char) : Prop := c = ';' ∨ c = ','

instance (c : Char) : Decidable (Separates c) := inferInstanceAs (Decidable (c = ';' ∨ c = ','))

/-- Whether characters are all of one piece. -/
def Unbroken (w : List Char) : Prop := ∀ c ∈ w, ¬ Separates c

theorem Unbroken.ne {w : List Char} (h : Unbroken w) : ∀ c ∈ w, c ≠ ';' ∧ c ≠ ',' :=
  fun c hc => ⟨fun hsemicolon => h c hc (Or.inl hsemicolon), fun hcomma => h c hc (Or.inr hcomma)⟩

/-- What holds of a last piece, and of a piece and a separator in front of any text of which it
holds, holds of every text. -/
theorem piecesInduction {p : List Char → Prop} (hlast : ∀ w, Unbroken w → p w)
    (hnext : ∀ w c cs, Unbroken w → Separates c → p cs → p (w ++ c :: cs)) (cs : List Char) :
    p cs := by
  -- a piece under way stands before the rest of the text
  have hfront : ∀ w, Unbroken w → p (w ++ cs) := by
    induction cs with
    | nil =>
        intro w hw
        rw [List.append_nil]
        exact hlast w hw
    | cons c cs ih =>
        intro w hw
        by_cases hc : Separates c
        · exact hnext w c cs hw hc (ih [] fun _ h => (List.not_mem_nil h).elim)
        · rw [List.append_cons]
          refine ih (w ++ [c]) fun a ha => ?_
          rcases List.mem_append.mp ha with ha | ha
          · exact hw a ha
          · rw [List.mem_singleton.mp ha]
            exact hc
  exact hfront [] fun _ h => (List.not_mem_nil h).elim

/-- A piece as a segment, unless it is empty. -/
def ofPiece (line : Nat) (w : List Char) : List Segment :=
  if w = [] then [] else [{ line, text := w }]

/-- The line of what stands behind a separator. -/
def lineAfter (line : Nat) (c : Char) : Nat :=
  if c = ';' then line + 1 else line

theorem reverse_push (line : Nat) (w : List Char) :
    (push line w.reverse []).reverse = ofPiece line w := by
  unfold ofPiece
  split
  · rename_i hw
    rw [hw]
    rfl
  · rename_i hw
    rw [push_of_ne_nil hw]
    rfl

theorem piecesFrom_last {w : List Char} (hw : Unbroken w) (line : Nat) :
    piecesFrom line w = ofPiece line w := by
  have hscan := scan_append hw.ne line [] [] []
  rw [List.append_nil, List.append_nil, scan, reverse_push,
    scan_eq_pieces w line [] [] List.not_mem_nil List.not_mem_nil] at hscan
  exact hscan

/-- **A separator ends a piece**, and a semicolon also its line. -/
theorem piecesFrom_append {w cs : List Char} (hw : Unbroken w) {c : Char} (hc : Separates c)
    (line : Nat) : piecesFrom line (w ++ c :: cs) =
      ofPiece line w ++ piecesFrom (lineAfter line c) cs := by
  have hscan := scan_append hw.ne line [] [] (c :: cs)
  have hnil : scan line (w.reverse ++ []) [] (c :: cs) =
      scan (lineAfter line c) [] (push line w.reverse []) cs := by
    rw [List.append_nil, scan, lineAfter]
    rcases hc with rfl | rfl
    · rfl
    · rfl
  rw [hnil, scan_eq_pieces _ line [] [] List.not_mem_nil List.not_mem_nil,
    scan_eq_pieces cs _ [] _ List.not_mem_nil List.not_mem_nil, reverse_push] at hscan
  exact hscan

end Segment

/-- Where a splitting of a text stands. -/
structure Splitter where
  /-- The byte behind the last separator. -/
  start : Nat
  line : UInt32
  /-- The bytes of the separators that have not been found yet. -/
  ends : List Nat

namespace Splitter

open Segment

/-! ## Two bytes in a row of bytes -/

/-- Whether a search tells where two bytes occur in a row of bytes, from the first place to the
last. -/
structure Finds (search : UInt8 → UInt8 → List UInt8 → List Nat) : Prop where
  ordered : ∀ a b row, (search a b row).Pairwise (· < ·)
  mem_iff : ∀ a b row i, i ∈ search a b row ↔ row[i]? = some a ∨ row[i]? = some b

/-- The places of two bytes in a row whose first byte is at `start`. -/
def places (a b : UInt8) (start : Nat) : List UInt8 → List Nat
  | [] => []
  | x :: row =>
    if x = a ∨ x = b then start :: places a b (start + 1) row else places a b (start + 1) row

section

variable {a b : UInt8}

theorem mem_places {row : List UInt8} : ∀ {start i : Nat}, i ∈ places a b start row ↔
    ∃ j, i = start + j ∧ (row[j]? = some a ∨ row[j]? = some b) := by
  induction row with
  | nil =>
      intro start i
      simp [places]
  | cons x row ih =>
      intro start i
      have hrest : i ∈ places a b (start + 1) row ↔ ∃ j, i = start + (j + 1) ∧
          ((x :: row)[j + 1]? = some a ∨ (x :: row)[j + 1]? = some b) := by
        rw [ih]
        refine exists_congr fun j => and_congr_left fun _ => ?_
        omega
      rw [← Nat.or_exists_add_one, ← hrest, places]
      split_ifs with hx
      · simp [hx]
      · simp [hx]

theorem pairwise_places {row : List UInt8} : ∀ {start : Nat},
    (places a b start row).Pairwise (· < ·) := by
  induction row with
  | nil => exact .nil
  | cons x row ih =>
      intro start
      rw [places]
      split
      · refine .cons (fun i hi => ?_) ih
        obtain ⟨j, rfl, -⟩ := mem_places.mp hi
        omega
      · exact ih

/-- Going through a row byte by byte finds all places. -/
theorem finds_places : Finds fun a b row => places a b 0 row where
  ordered a b row := pairwise_places
  mem_iff a b row i := by simp [mem_places]

/-- **A search has one answer only.** -/
theorem Finds.eq_places {search : UInt8 → UInt8 → List UInt8 → List Nat} (h : Finds search)
    (row : List UInt8) : search a b row = places a b 0 row :=
  (h.ordered a b row).eq_of_mem_iff pairwise_places fun i => by
    rw [h.mem_iff, finds_places.mem_iff a b row i]

theorem places_append (xs : List UInt8) : ∀ (start : Nat) (ys : List UInt8),
    places a b start (xs ++ ys) = places a b start xs ++ places a b (start + xs.length) ys := by
  induction xs with
  | nil => exact fun _ _ => rfl
  | cons x xs ih =>
      intro start ys
      have hstart : start + (x :: xs).length = start + 1 + xs.length := by
        rw [List.length_cons]
        omega
      rw [List.cons_append, places, places, ih, hstart]
      split <;> rfl

theorem places_eq_nil {row : List UInt8} (h : ∀ x ∈ row, x ≠ a ∧ x ≠ b) (start : Nat) :
    places a b start row = [] := by
  refine List.eq_nil_iff_forall_not_mem.mpr fun i hi => ?_
  obtain ⟨j, -, hj | hj⟩ := mem_places.mp hi
  · exact (h a (List.mem_of_getElem? hj)).1 rfl
  · exact (h b (List.mem_of_getElem? hj)).2 rfl

end

/-! ## Bytes of a text -/

/-- The bytes of a text. -/
def bytes (text : String) : List UInt8 := text.toUTF8.data.toList

/-- The bytes of characters. -/
def encode (cs : List Char) : List UInt8 := cs.flatMap String.utf8EncodeChar

theorem bytes_ofList (cs : List Char) : bytes (String.ofList cs) = encode cs := by
  show (String.ofList cs).toByteArray.data.toList = _
  rw [String.toByteArray_ofList, List.utf8Encode, List.data_toByteArray, encode]

theorem encode_append (cs ds : List Char) : encode (cs ++ ds) = encode cs ++ encode ds :=
  List.flatMap_append

theorem length_encode (cs : List Char) : (encode cs).length = String.utf8Len cs := by
  induction cs with
  | nil => rfl
  | cons c cs ih =>
      have hcons : encode (c :: cs) = String.utf8EncodeChar c ++ encode cs := List.flatMap_cons
      rw [hcons, List.length_append, String.length_utf8EncodeChar, ih, String.utf8Len_cons,
        Nat.add_comm]

/-- **No byte of another character is one of the first 128 characters.** -/
theorem eq_of_mem_utf8EncodeChar {c d : Char} (hd : d.toNat < 128)
    (h : UInt8.ofNat d.toNat ∈ String.utf8EncodeChar c) : c = d := by
  have hbyte : (UInt8.ofNat d.toNat).toNat = d.toNat := by
    rw [UInt8.toNat_ofNat']
    omega
  have hne : ∀ n : Nat, 128 ≤ n % 256 → UInt8.ofNat d.toNat ≠ UInt8.ofNat n := by
    intro n hn heq
    rw [heq, UInt8.toNat_ofNat'] at hbyte
    omega
  unfold String.utf8EncodeChar at h
  dsimp only at h
  -- all bytes of a longer character are above 127
  split at h
  · rename_i hc
    have heq := congrArg UInt8.toNat (List.mem_singleton.mp h)
    rw [hbyte, UInt8.toNat_ofNat'] at heq
    have hsame : c.toNat = d.toNat := by
      show c.val.toNat = _
      omega
    rw [← Char.ofNat_toNat c, hsame, Char.ofNat_toNat]
  split at h
  · simp only [List.mem_cons, List.not_mem_nil, or_false] at h
    rcases h with h | h <;> exact absurd h (hne _ (by omega))
  split at h
  · simp only [List.mem_cons, List.not_mem_nil, or_false] at h
    rcases h with h | h | h <;> exact absurd h (hne _ (by omega))
  · simp only [List.mem_cons, List.not_mem_nil, or_false] at h
    rcases h with h | h | h | h <;> exact absurd h (hne _ (by omega))

/-- There is no separator among the bytes of a piece. -/
theorem ne_of_mem_encode {w : List Char} (hw : Unbroken w) :
    ∀ x ∈ encode w, x ≠ 59 ∧ x ≠ 44 := by
  intro x hx
  obtain ⟨c, hc, hxc⟩ := List.mem_flatMap.mp hx
  constructor
  · rintro rfl
    exact hw c hc (Or.inl (eq_of_mem_utf8EncodeChar (d := ';') (by decide) hxc))
  · rintro rfl
    exact hw c hc (Or.inr (eq_of_mem_utf8EncodeChar (d := ',') (by decide) hxc))

/-! ## Cuts -/

/-- The splitting of a text before anything of it is found. The bytes are those of a semicolon and a
comma. -/
def ofText (search : UInt8 → UInt8 → List UInt8 → List Nat) (text : String) : Splitter where
  start := 0
  line := 1
  ends := search 59 44 (bytes text)

/-- The part of a text between two bytes, which must be in order, and each of which must start a
character or be the end of the text. -/
def slice? (text : String) (start stop : Nat) : Option String :=
  if start ≤ stop ∧ String.Pos.Raw.isValid text ⟨start⟩ ∧ String.Pos.Raw.isValid text ⟨stop⟩ then
    some (String.Pos.Raw.extract text ⟨start⟩ ⟨stop⟩)
  else none

/-- The line behind the next separator, unless it is no word. -/
def nextLine? (text : String) (s : Splitter) : Option UInt32 :=
  match s.ends with
  | [] => some s.line
  | stop :: _ =>
    match (bytes text)[stop]? with
    | none => none
    | some x => if x = 59 then Coordinate.add? s.line 1 else some s.line

/-- Cuts the piece out of a text that is before the next separator or the end of the text. -/
def cut? (text : String) (s : Splitter) : Option (String × Splitter) :=
  match s.nextLine? text, slice? text s.start (s.ends.headD text.utf8ByteSize) with
  | some line, some piece =>
    some (piece, { start := s.ends.headD text.utf8ByteSize + 1, line, ends := s.ends.tail })
  | _, _ => none

/-- A cut goes on behind its separator. -/
theorem start_lt_of_cut? {text piece : String} {s s' : Splitter}
    (h : s.cut? text = some (piece, s')) : s.start < s'.start := by
  unfold cut? at h
  split at h
  · rename_i hslice
    cases h
    unfold slice? at hslice
    split at hslice
    · rename_i hbounds
      exact Nat.lt_succ_of_le hbounds.1
    · cases hslice
  · cases h

/-- The next piece that is not empty, with its line, if there is one, and where the splitting stands
behind it. There is no outcome where a cut fails. -/
def next (text : String) (s : Splitter) : Option (Option (UInt32 × String) × Splitter) :=
  if _past : text.utf8ByteSize < s.start then some (none, s)
  else
    match _cut : s.cut? text with
    | none => none
    | some (piece, s') => if piece.isEmpty then next text s' else some (some (s.line, piece), s')
termination_by text.utf8ByteSize + 1 - s.start
decreasing_by
  have hlt := start_lt_of_cut? _cut
  omega

/-- The next piece ends behind the byte where the last one did, and there is none past the end. -/
theorem start_lt_of_next {text : String} {s s' : Splitter} {found : UInt32 × String}
    (h : s.next text = some (some found, s')) :
    s.start ≤ text.utf8ByteSize ∧ s.start < s'.start := by
  fun_induction next text s with
  | case1 s past => cases h
  | case2 s past hcut => cases h
  | case3 s past piece s₁ hcut hempty ih =>
      have hlt := start_lt_of_cut? hcut
      have hrest := ih h
      omega
  | case4 s past piece s₁ hcut hempty =>
      cases h
      have hlt := start_lt_of_cut? hcut
      omega

/-- All pieces that are not empty, with their lines, in the order in which they are found. -/
def collect (text : String) (s : Splitter) : Option (List (UInt32 × String)) :=
  match _next : s.next text with
  | none => none
  | some (none, _) => some []
  | some (some found, s') => (collect text s').map (found :: ·)
termination_by text.utf8ByteSize + 1 - s.start
decreasing_by
  have hlt := start_lt_of_next _next
  omega

theorem next_of_cut? {text piece : String} {s s' : Splitter} (h : s.start ≤ text.utf8ByteSize)
    (hcut : s.cut? text = some (piece, s')) : s.next text =
      if piece.isEmpty then s'.next text else some (some (s.line, piece), s') := by
  rw [next, dif_neg (Nat.not_lt.mpr h)]
  split
  · rename_i hnone
    cases hcut.symm.trans hnone
  · rename_i hsome
    cases hcut.symm.trans hsome
    rfl

theorem collect_eq (text : String) (s : Splitter) : s.collect text =
    match s.next text with
    | none => none
    | some (none, _) => some []
    | some (some found, s') => (s'.collect text).map (found :: ·) := by
  rw [collect]
  split <;> simp_all

theorem collect_of_past {text : String} {s : Splitter} (h : text.utf8ByteSize < s.start) :
    s.collect text = some [] := by
  rw [collect_eq, next, dif_pos h]

/-- **What is found is what the next cut gives and what is found behind it.** -/
theorem collect_of_cut? {text piece : String} {s s' : Splitter} {found : List (UInt32 × String)}
    (h : s.start ≤ text.utf8ByteSize) (hcut : s.cut? text = some (piece, s'))
    (hrest : s'.collect text = some found) :
    s.collect text = some (if piece.isEmpty then found else (s.line, piece) :: found) := by
  rw [collect_eq, next_of_cut? h hcut]
  split_ifs
  · rw [← collect_eq, hrest]
  · simp only [hrest, Option.map_some]

/-! ## Behind a separator -/

/-- Whether a splitting stands in front of the rest of a text, on a line. -/
structure Stands (s : Splitter) (text : String) (line : Nat) (rest : List Char) : Prop where
  start : ∃ before, text = String.ofList before ++ String.ofList rest ∧
    s.start = String.utf8Len before
  line : s.line.toNat = line
  ends : s.ends = places 59 44 s.start (encode rest)

section

variable {s : Splitter} {text : String} {line : Nat} {w cs : List Char} {c : Char}

theorem stands_ofText {search : UInt8 → UInt8 → List UInt8 → List Nat} (h : Finds search)
    (text : String) : (ofText search text).Stands text 1 text.toList where
  start := ⟨[], by rw [String.ofList_toList]; rfl, rfl⟩
  line := rfl
  ends := by
    show search 59 44 (bytes text) = places 59 44 0 (encode text.toList)
    rw [h.eq_places, ← bytes_ofList, String.ofList_toList]

theorem Stands.le (h : s.Stands text line cs) : s.start ≤ text.utf8ByteSize := by
  obtain ⟨before, rfl, hstart⟩ := h.start
  rw [hstart, String.utf8ByteSize_append, String.utf8ByteSize_ofList]
  omega

theorem isValid_append (before after : String) :
    String.Pos.Raw.isValid (before ++ after) ⟨before.utf8ByteSize⟩ = true :=
  String.Pos.Raw.isValid_eq_true_iff.mpr
    (String.Pos.Raw.isValid_iff_exists_append.mpr ⟨before, after, rfl, rfl⟩)

/-- **Cuts are at bytes that start a character**, and what is between them is cut out. -/
theorem Stands.slice?_eq (h : s.Stands text line (w ++ cs)) :
    slice? text s.start (s.start + String.utf8Len w) = some (String.ofList w) := by
  obtain ⟨before, rfl, hstart⟩ := h.start
  have hstop := isValid_append (String.ofList (before ++ w)) (String.ofList cs)
  rw [String.utf8ByteSize_ofList, String.utf8Len_append, ← String.ofList_append, List.append_assoc,
    String.ofList_append] at hstop
  have hvalid := isValid_append (String.ofList before) (String.ofList (w ++ cs))
  rw [String.utf8ByteSize_ofList] at hvalid
  rw [hstart, slice?, if_pos ⟨Nat.le_add_right _ _, hvalid, hstop⟩, ← String.ofList_append,
    ← List.append_assoc, String.extract_of_valid]

/-- A separator is one byte, which tells whether it is a semicolon. -/
theorem exists_byte (hc : Separates c) : ∃ x, String.utf8EncodeChar c = [x] ∧ (x = 59 ∨ x = 44) ∧
    (x = 59 ↔ c = ';') := by
  rcases hc with rfl | rfl
  · exact ⟨59, by decide, Or.inl rfl, by decide⟩
  · exact ⟨44, by decide, Or.inr rfl, by decide⟩

/-- The last cut takes what is left, and there is nothing behind it. -/
theorem Stands.cut?_last (h : s.Stands text line w) (hw : Unbroken w) :
    ∃ s', s.cut? text = some (String.ofList w, s') ∧ text.utf8ByteSize < s'.start := by
  have hends : s.ends = [] := h.ends.trans (places_eq_nil (ne_of_mem_encode hw) s.start)
  have hsize : text.utf8ByteSize = s.start + String.utf8Len w := by
    obtain ⟨before, rfl, hstart⟩ := h.start
    rw [hstart, String.utf8ByteSize_append, String.utf8ByteSize_ofList, String.utf8ByteSize_ofList]
  have hwhole : s.Stands text line (w ++ []) := by rwa [List.append_nil]
  refine ⟨{ start := text.utf8ByteSize + 1, line := s.line, ends := [] }, ?_, Nat.lt_succ_self _⟩
  simp only [cut?, nextLine?, hends, List.headD_nil, hsize, hwhole.slice?_eq, List.tail_nil]

/-- **A cut takes a splitting behind the next separator.** -/
theorem Stands.cut?_next (h : s.Stands text line (w ++ c :: cs)) (hw : Unbroken w)
    (hc : Separates c) (hline : lineAfter line c < UInt32.size) :
    ∃ s', s.cut? text = some (String.ofList w, s') ∧ s'.Stands text (lineAfter line c) cs := by
  obtain ⟨x, hx, hsep, hsemicolon⟩ := exists_byte hc
  have hencode : encode (w ++ c :: cs) = encode w ++ x :: encode cs := by
    have hcons : encode (c :: cs) = String.utf8EncodeChar c ++ encode cs := List.flatMap_cons
    rw [encode_append, hcons, hx, List.singleton_append]
  -- the next byte that is found is the one behind the piece
  let stop := s.start + String.utf8Len w
  have hends : s.ends = stop :: places 59 44 (stop + 1) (encode cs) := by
    rw [h.ends, hencode, places_append, places_eq_nil (ne_of_mem_encode hw), List.nil_append,
      places, if_pos hsep, length_encode]
  have hbyte : (bytes text)[stop]? = some x := by
    obtain ⟨before, rfl, hstart⟩ := h.start
    have hlength : stop = (encode before ++ encode w).length := by
      rw [List.length_append, length_encode, length_encode, ← hstart]
    rw [← String.ofList_append, bytes_ofList, encode_append, hencode, ← List.append_assoc,
      hlength, List.getElem?_append_right (Nat.le_refl _), Nat.sub_self]
    rfl
  obtain ⟨line', hnext, hline'⟩ : ∃ line' : UInt32, s.nextLine? text = some line' ∧
      line'.toNat = lineAfter line c := by
    simp only [nextLine?, hends, hbyte, hsemicolon]
    unfold lineAfter at hline ⊢
    split
    · rename_i hc'
      rw [if_pos hc'] at hline
      have hone : (1 : UInt32).toNat = 1 := rfl
      refine ⟨UInt32.ofNat (line + 1), Coordinate.ofInt?_eq_some_iff.mpr ?_,
        UInt32.toNat_ofNat_of_lt' hline⟩
      rw [UInt32.toNat_ofNat_of_lt' hline, h.line, hone]
      rfl
    · exact ⟨s.line, rfl, h.line⟩
  refine ⟨{ start := stop + 1, line := line', ends := places 59 44 (stop + 1) (encode cs) }, ?_,
    ?_, hline', rfl⟩
  · have hslice : slice? text s.start stop = some (String.ofList w) := h.slice?_eq
    simp only [cut?, hnext, hends, List.headD_cons, List.tail_cons, hslice]
  · obtain ⟨before, rfl, hstart⟩ := h.start
    have hone : c.utf8Size = 1 := by rw [← String.length_utf8EncodeChar, hx, List.length_singleton]
    refine ⟨before ++ (w ++ [c]), ?_, ?_⟩
    · rw [← String.ofList_append, ← String.ofList_append, List.append_assoc, List.append_assoc,
        List.singleton_append]
    · rw [String.utf8Len_append, String.utf8Len_append, String.utf8Len_cons, String.utf8Len_nil,
        hone, ← hstart]
      rfl

/-! ## All pieces -/

/-- What is found, as a segment. -/
def segment (found : UInt32 × String) : Segment where
  line := found.1.toNat
  text := found.2.toList

/-- The lines of a text count its semicolons. -/
theorem count_append (hw : Unbroken w) (c : Char) (cs : List Char) (line : Nat) :
    line + (w ++ c :: cs).count ';' = lineAfter line c + cs.count ';' := by
  have hnone : w.count ';' = 0 := List.count_eq_zero.mpr fun h => (hw.ne _ h).1 rfl
  rw [List.count_append, hnone, List.count_cons, lineAfter]
  by_cases hc : c = ';'
  · simp only [hc, if_true, beq_self_eq_true]
    omega
  · simp only [hc, if_false, beq_iff_eq]
    omega

/-- A piece that is found is a segment, unless it is empty. -/
theorem map_segment_cons (hline : s.line.toNat = line) (w : List Char)
    (found : List (UInt32 × String)) :
    (if (String.ofList w).isEmpty then found else (s.line, String.ofList w) :: found).map segment =
      ofPiece line w ++ found.map segment := by
  have hempty : (String.ofList w).isEmpty = true ↔ w = [] := by
    rw [String.isEmpty_iff, ← String.toList_eq_nil_iff, String.toList_ofList]
  by_cases hw : w = []
  · rw [if_pos (hempty.mpr hw), ofPiece, if_pos hw]
    rfl
  · rw [if_neg fun h => hw (hempty.mp h), ofPiece, if_neg hw, List.map_cons, segment, hline,
      String.toList_ofList]
    rfl

/-- **What is found in front of the rest of a text are its pieces**, while its lines are words. -/
theorem collect_eq_pieces (rest : List Char) : ∀ {s : Splitter} {line : Nat},
    s.Stands text line rest → line + rest.count ';' < UInt32.size →
      ∃ found, s.collect text = some found ∧ found.map segment = piecesFrom line rest := by
  induction rest using piecesInduction with
  | hlast w hw =>
      intro s line h _
      obtain ⟨s', hcut, hpast⟩ := h.cut?_last hw
      refine ⟨_, collect_of_cut? h.le hcut (collect_of_past hpast), ?_⟩
      rw [map_segment_cons h.line, piecesFrom_last hw, List.map_nil, List.append_nil]
  | hnext w c cs hw hc ih =>
      intro s line h hlines
      rw [count_append hw] at hlines
      obtain ⟨s', hcut, hstands⟩ := h.cut?_next hw hc (by omega)
      obtain ⟨found, hfound, hpieces⟩ := ih hstands hlines
      refine ⟨_, collect_of_cut? h.le hcut hfound, ?_⟩
      rw [map_segment_cons h.line, piecesFrom_append hw hc, hpieces]

/-- A segment is tagged with the line that the semicolons before it lead to. -/
theorem exists_before (cs : List Char) : ∀ {line : Nat} {done todo : List Segment} {t : Segment},
    piecesFrom line cs = done ++ t :: todo → ∃ before after, cs = before ++ t.text ++ after ∧
      piecesFrom line before = done ∧ t.line = line + before.count ';' := by
  have hnil (line : Nat) : piecesFrom line [] = [] :=
    piecesFrom_last (fun _ h => (List.not_mem_nil h).elim) line
  induction cs using piecesInduction with
  | hlast w hw =>
      intro line done todo t h
      rw [piecesFrom_last hw, ofPiece] at h
      split at h
      · cases done <;> cases h
      · cases done with
        | nil =>
            cases h
            exact ⟨[], [], (List.append_nil w).symm, hnil line, rfl⟩
        | cons _ done =>
            rw [List.cons_append, List.cons.injEq] at h
            cases done <;> cases h.2
  | hnext w c cs hw hc ih =>
      intro line done todo t h
      -- the segment is found behind the separator, where it is not the piece before it
      have hbehind {done' : List Segment}
          (h' : piecesFrom (lineAfter line c) cs = done' ++ t :: todo) :
          ∃ before after, w ++ c :: cs = before ++ t.text ++ after ∧
            piecesFrom line before = ofPiece line w ++ done' ∧
            t.line = line + before.count ';' := by
        obtain ⟨before, after, hcs, hdone, hline⟩ := ih h'
        refine ⟨w ++ c :: before, after, ?_, ?_, ?_⟩
        · rw [hcs, List.append_assoc, List.append_assoc, List.append_assoc]
          rfl
        · rw [piecesFrom_append hw hc, hdone]
        · rw [count_append hw, hline]
      rw [piecesFrom_append hw hc] at h
      by_cases hempty : w = []
      · have hnone : ofPiece line w = [] := if_pos hempty
        rw [hnone, List.nil_append] at h
        obtain ⟨before, after, hcs, hdone, hline⟩ := hbehind h
        rw [hnone, List.nil_append] at hdone
        exact ⟨before, after, hcs, hdone, hline⟩
      · have hone : ofPiece line w = [{ line, text := w }] := if_neg hempty
        rw [hone, List.singleton_append] at h
        cases done with
        | nil =>
            cases h
            exact ⟨[], c :: cs, rfl, hnil line, rfl⟩
        | cons _ done =>
            rw [List.cons_append, List.cons.injEq] at h
            obtain ⟨rfl, h⟩ := h
            obtain ⟨before, after, hcs, hdone, hline⟩ := hbehind h
            rw [hone, List.singleton_append] at hdone
            exact ⟨before, after, hcs, hdone, hline⟩

end

/-- **Splitting in place finds the segments of a text.** While the lines of a text are words, no cut
fails, and what is found, in order, are the pieces between commas of the parts between semicolons
that are not empty. Each has the number of semicolons before it, and one, as its line. One pass over
the characters gives the same. -/
theorem collect_finds_pieces {search : UInt8 → UInt8 → List UInt8 → List Nat}
    (hsearch : Finds search) {text : String} (h : text.toList.count ';' < UInt32.size - 1) :
    (∃ found, (ofText search text).collect text = some found ∧
      found.map segment = pieces text.toList) ∧
    Segment.split text.toList = pieces text.toList ∧
    ∀ done t todo, pieces text.toList = done ++ t :: todo → ∃ before after,
      text.toList = before ++ t.text ++ after ∧ pieces before = done ∧
        t.line = 1 + before.count ';' := by
  refine ⟨collect_eq_pieces _ (stands_ofText hsearch text) (by omega), ?_, ?_⟩
  · exact scan_eq_pieces text.toList 1 [] [] List.not_mem_nil List.not_mem_nil
  · exact fun done t todo => exists_before text.toList

/-- Separators in a row, at both ends, and beside a letter of several bytes. -/
theorem collect_finds_pieces_repeated :
    let search := fun a b row => places a b 0 row
    let text := ";,é;;,A,,C;"
    Finds search ∧ text.toList.count ';' < UInt32.size - 1 ∧
      (∃ found, (ofText search text).collect text = some found ∧
        found.map segment = [⟨2, ['é']⟩, ⟨4, ['A']⟩, ⟨4, ['C']⟩]) ∧
      ∃ before after, text.toList = before ++ ['C'] ++ after ∧
        pieces before = [⟨2, ['é']⟩, ⟨4, ['A']⟩] ∧ 4 = 1 + before.count ';' := by
  intro search text
  have hcount : text.toList.count ';' < UInt32.size - 1 := by decide
  have hpieces : pieces text.toList = [⟨2, ['é']⟩, ⟨4, ['A']⟩, ⟨4, ['C']⟩] := by decide +kernel
  obtain ⟨⟨found, hfound, hsame⟩, -, hlines⟩ := collect_finds_pieces finds_places hcount
  exact ⟨finds_places, hcount, ⟨found, hfound, hsame.trans hpieces⟩,
    hlines [⟨2, ['é']⟩, ⟨4, ['A']⟩] ⟨4, ['C']⟩ [] hpieces⟩

end Splitter

end SourceMap

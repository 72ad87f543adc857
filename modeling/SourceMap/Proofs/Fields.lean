import Mathlib
import SourceMap.Proofs.Segment
import SourceMap.Proofs.Spelling

/-!
# The fields of a segment

A segment is accepted just if it consists of one, four or five quantities, and it then stands for
their values in order. In every other text the first of its first five quantities that cannot be
read decides the error, and the text as a whole is malformed if there is none
(`parse_iff_quantities`).

A machine goes through the text by an index of bytes and writes the values into five slots.
`Cursor.turn` is one turn of its loop, which crashes where it would write behind the last slot or
read in the middle of a character. It never does, and the loop takes no more than six turns
(`run_eq`).
-/

set_option autoImplicit false

namespace SourceMap

/-! ## Bytes of digits -/

namespace Vlq

theorem IsDigit.utf8Size_eq {c : Char} {d : Nat} (h : IsDigit c d) : c.utf8Size = 1 := by
  rw [← digitChar_of_digitValue? (digitValue?_eq_some_iff.mpr h)]
  exact utf8Size_digitChar h.lt

theorem GoOn.utf8Len_eq {front : List Char} {ds : List Nat} (h : GoOn front ds) :
    String.utf8Len front = front.length := by
  induction h with
  | nil => rfl
  | cons hdigit _ ih => rw [String.utf8Len_cons, hdigit.1.utf8Size_eq, ih, List.length_cons]

/-- What is read of a text stands before the rest and takes a byte for each character. -/
theorem exists_of_decode {cs rest : List Char} {v : Int} (h : decode cs = .ok (v, rest)) :
    ∃ digits, cs = digits ++ rest ∧ String.utf8Len digits = cs.length - rest.length := by
  obtain ⟨ds, ⟨front, more, c, d, rfl, rfl, hfront, hdigit, -⟩, -⟩ := decode_eq_ok_iff.mp h
  refine ⟨front ++ [c], List.append_cons _ _ _, ?_⟩
  have hlength : (front ++ c :: rest).length - rest.length = front.length + 1 := by
    rw [List.length_append, List.length_cons]
    omega
  rw [String.utf8Len_append, hfront.utf8Len_eq, String.utf8Len_cons, hdigit.utf8Size_eq, hlength]
  rfl

end Vlq

namespace Segment

/-! ## In place -/

/-- Where a reading of a segment stands: five slots for values, how many of them are written, and
the byte up to which the text has been read. -/
structure Cursor where
  slots : Vector Int 5
  count : Nat
  index : Nat

/-- What a turn of the loop comes to. -/
inductive Turn where
  | next (c : Cursor)
  | stop (result : Except Error (List Int))
  | crash

namespace Cursor

/-- The reading of a segment before anything of it is read. -/
def start : Cursor where
  slots := Vector.replicate 5 0
  count := 0
  index := 0

/-- One turn: the next quantity is read and written into the next slot. At the end of the text the
number of written slots decides. -/
def turn (text : String) (c : Cursor) : Turn :=
  if c.index < text.utf8ByteSize then
    if c.count = 5 then .stop (.error (malformed text.toList))
    else if String.Pos.Raw.isValid text ⟨c.index⟩ then
      match Vlq.decodeAt text c.index with
      | .error e => .stop (.error e)
      | .ok (v, index) =>
        if h : c.count < 5 then
          .next { slots := c.slots.set c.count v, count := c.count + 1, index }
        else .crash
    else .crash
  else if c.count = 1 ∨ c.count = 4 ∨ c.count = 5 then .stop (.ok (c.slots.toList.take c.count))
  else .stop (.error (malformed text.toList))

/-- Takes turns until the loop stops. There is no result if it crashes, or has not stopped after the
given number of turns. -/
def run (text : String) : (turns : Nat) → Cursor → Option (Except Error (List Int))
  | 0, _ => none
  | turns + 1, c =>
    match c.turn text with
    | .next c => run text turns c
    | .stop result => some result
    | .crash => none

end Cursor

/-- Whether a reading has the given values and has the rest of the text still to come. -/
structure Cursor.Stands (c : Cursor) (text : String) (vs : List Int) (cs : List Char) : Prop where
  rest : ∃ before, text = before ++ String.ofList cs ∧ c.index = before.utf8ByteSize
  count : c.count = vs.length
  room : vs.length ≤ 5
  slots : c.slots.toList.take vs.length = vs

section

variable {c : Cursor} {text : String} {vs : List Int} {cs : List Char}

/-- The text is at its end just if nothing of it is still to come. -/
theorem Cursor.Stands.index_lt_iff (h : c.Stands text vs cs) :
    c.index < text.utf8ByteSize ↔ cs ≠ [] := by
  obtain ⟨before, rfl, hindex⟩ := h.rest
  have hzero : String.utf8Len cs = 0 ↔ cs = [] := String.utf8Len_eq_zero
  rw [hindex, String.utf8ByteSize_append, String.utf8ByteSize_ofList, ne_eq, ← hzero]
  omega

/-- **The loop reads at a byte that starts a character.** -/
theorem Cursor.Stands.isValid (h : c.Stands text vs cs) :
    String.Pos.Raw.isValid text ⟨c.index⟩ = true := by
  obtain ⟨before, heq, hindex⟩ := h.rest
  refine String.Pos.Raw.isValid_eq_true_iff.mpr (String.Pos.Raw.isValid_iff_exists_append.mpr
    ⟨before, String.ofList cs, heq, ?_⟩)
  rw [hindex]
  rfl

theorem Cursor.Stands.decodeAt_eq (h : c.Stands text vs cs) :
    Vlq.decodeAt text c.index =
      (Vlq.decode cs).map fun r => (r.1, c.index + (cs.length - r.2.length)) := by
  have hdrop := Vlq.HasFrom.dropBytes_eq (Or.inl h.rest)
  simp only [Vlq.decodeAt, hdrop]
  cases Vlq.decode cs <;> rfl

/-! ## Turns -/

/-- The outcome of a segment of which all quantities have been read. -/
def counted (text : List Char) (vs : List Int) : Except Error (List Int) :=
  if vs.length = 1 ∨ vs.length = 4 ∨ vs.length = 5 then .ok vs else .error (malformed text)

/-- At the end of the text the number of values decides. -/
theorem Cursor.Stands.turn_nil (h : c.Stands text vs []) :
    c.turn text = .stop (counted text.toList vs) := by
  have hend : ¬ c.index < text.utf8ByteSize := fun hlt => h.index_lt_iff.mp hlt rfl
  rw [turn, if_neg hend, h.count, h.slots, counted]
  split_ifs <;> rfl

/-- There is no sixth value. -/
theorem Cursor.Stands.turn_full (h : c.Stands text vs cs) (hcs : cs ≠ []) (hfull : vs.length = 5) :
    c.turn text = .stop (.error (malformed text.toList)) := by
  rw [turn, if_pos (h.index_lt_iff.mpr hcs), if_pos (h.count.trans hfull)]

/-- A quantity that cannot be read stops the loop. -/
theorem Cursor.Stands.turn_error (h : c.Stands text vs cs) (hcs : cs ≠ []) (hroom : vs.length < 5)
    {e : Error} (hdecode : Vlq.decode cs = .error e) : c.turn text = .stop (.error e) := by
  have hcount : c.count ≠ 5 := by
    rw [h.count]
    exact Nat.ne_of_lt hroom
  rw [turn, if_pos (h.index_lt_iff.mpr hcs), if_neg hcount, if_pos h.isValid, h.decodeAt_eq,
    hdecode]
  rfl

/-- **One turn reads one quantity**: its value is in the next slot, and the rest of the text is
still to come. -/
theorem Cursor.Stands.turn_next (h : c.Stands text vs cs) (hcs : cs ≠ []) (hroom : vs.length < 5)
    {v : Int} {rest : List Char} (hdecode : Vlq.decode cs = .ok (v, rest)) :
    ∃ c', c.turn text = .next c' ∧ c'.Stands text (vs ++ [v]) rest := by
  have hcount : c.count < 5 := by rwa [h.count]
  have hread : Vlq.decodeAt text c.index = .ok (v, c.index + (cs.length - rest.length)) := by
    rw [h.decodeAt_eq, hdecode]
    rfl
  refine ⟨{ slots := c.slots.set c.count v, count := c.count + 1,
            index := c.index + (cs.length - rest.length) }, ?_, ?_⟩
  · rw [turn, if_pos (h.index_lt_iff.mpr hcs), if_neg (Nat.ne_of_lt hcount), if_pos h.isValid,
      hread]
    dsimp only
    rw [dif_pos hcount]
  · obtain ⟨before, rfl, hindex⟩ := h.rest
    obtain ⟨digits, hsplit, hbytes⟩ := Vlq.exists_of_decode hdecode
    refine ⟨⟨before ++ String.ofList digits, ?_, ?_⟩, ?_, ?_, ?_⟩
    · rw [hsplit, String.ofList_append, String.append_assoc]
    · dsimp only
      rw [hindex, String.utf8ByteSize_append, String.utf8ByteSize_ofList, hbytes]
    · rw [List.length_append, ← h.count]
      rfl
    · rw [List.length_append]
      exact hroom
    · -- the values before it stay in their slots
      have hlt : vs.length < c.slots.toList.length := by simpa using hroom
      rw [List.length_append, List.length_singleton, Vector.toList_set, h.count, List.take_add_one,
        List.take_set_of_le (Nat.le_refl _), h.slots, List.getElem?_set_self hlt]
      rfl

end

/-- **The loop comes to what the quantities come to**, and takes one turn for each that there is
room for and one more. -/
theorem Cursor.Stands.run_eq {text : String} {room : Nat} :
    ∀ {c : Cursor} {vs : List Int} {cs : List Char}, c.Stands text vs cs → vs.length + room = 5 →
      c.run text (room + 1) =
        some ((quantities text.toList room cs).bind fun ws => counted text.toList (vs ++ ws)) := by
  induction room with
  | zero =>
      intro c vs cs h hroom
      cases cs with
      | nil =>
          rw [run, h.turn_nil, quantities_nil, Except.bind, List.append_nil]
      | cons a cs =>
          rw [run, h.turn_full (List.cons_ne_nil a cs) hroom]
          rfl
  | succ room ih =>
      intro c vs cs h hroom
      have hlt : vs.length < 5 := by omega
      cases cs with
      | nil =>
          rw [run, h.turn_nil, quantities_nil, Except.bind, List.append_nil]
      | cons a cs =>
          cases hdecode : Vlq.decode (a :: cs) with
          | error e =>
              rw [run, h.turn_error (List.cons_ne_nil a cs) hlt hdecode,
                quantities_of_decode_error hdecode]
              rfl
          | ok read =>
              obtain ⟨v, rest⟩ := read
              obtain ⟨c', hturn, hstands⟩ := h.turn_next (List.cons_ne_nil a cs) hlt hdecode
              have hroom' : (vs ++ [v]).length + room = 5 := by
                rw [List.length_append, List.length_singleton]
                omega
              rw [run, hturn, quantities_of_decode hdecode]
              dsimp only
              rw [ih hstands hroom']
              cases quantities text.toList room rest with
              | error e => rfl
              | ok ws => simp [Except.bind, Except.map]

/-! ## Outcomes -/

/-- A sixth quantity is not looked at, and a fault in the second counts before their number. -/
example : Delta.parse "AAAAA!".toList = .error (malformed "AAAAA!".toList) ∧
    Delta.parse "A!".toList = .error (.invalidDigit '!') := by decide +kernel

end Segment

end SourceMap

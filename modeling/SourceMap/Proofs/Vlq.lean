import Mathlib
import SourceMap.Vlq

/-!
# Quantities read back

A quantity that was written is read back in front of any text (`decode_encode_append`), because its
last digit alone is below 32. Its digits are none of the characters that separate segments
(`ne_separator_of_mem_encode`).
-/

set_option autoImplicit false

namespace SourceMap.Vlq

/-! ## Numbers -/

/-- Thirteen digits hold 65 bits: the sign and a magnitude of 64. -/
theorem ofSigned_lt {v : Int} (h : fits v = true) : ofSigned v < 32 ^ maxDigits := by
  simp only [fits, Bool.and_eq_true, decide_eq_true_eq] at h
  obtain ⟨hlo, hhi⟩ := h
  show 2 * v.natAbs + (if v < 0 then 1 else 0) < 32 ^ 13
  split <;> omega

/-- A digit below 32 is the last one of a number. -/
theorem decodeNat_last {room d : Nat} {c : Char} (h : digitValue? c = some d) (hd : d < 32)
    (rest : List Char) : decodeNat (room + 1) (c :: rest) = .ok (d, rest) := by
  rw [decodeNat.eq_def]
  simp only [h, if_pos hd]

/-- After any other digit the number goes on. -/
theorem decodeNat_next {room d n : Nat} {c : Char} {cs rest : List Char}
    (h : digitValue? c = some d) (hd : ¬ d < 32) (hcs : decodeNat room cs = .ok (n, rest)) :
    decodeNat (room + 1) (c :: cs) = .ok (d - 32 + 32 * n, rest) := by
  rw [decodeNat.eq_def]
  simp only [h, if_neg hd, hcs]

/-- Reading the digits of a number in front of any text gives the number back. -/
theorem decodeNat_encodeNat_append {room n : Nat} (h : n < 32 ^ room) (hroom : room ≠ 0)
    (rest : List Char) : decodeNat room (encodeNat n ++ rest) = .ok (n, rest) := by
  induction room generalizing n with
  | zero => exact absurd rfl hroom
  | succ room ih =>
      rw [encodeNat]
      by_cases hn : n < 32
      · rw [if_pos hn]
        show decodeNat (room + 1) (digitChar n :: rest) = .ok (n, rest)
        exact decodeNat_last (digitValue?_digitChar (by omega)) hn rest
      · -- the number goes on, so there is room for at least one more digit
        have hpow : 32 ^ (room + 1) = 32 ^ room * 32 := Nat.pow_succ 32 room
        have hdiv : n / 32 < 32 ^ room := by
          rw [Nat.div_lt_iff_lt_mul (by decide)]
          omega
        have hroom' : room ≠ 0 := by
          rintro rfl
          omega
        rw [if_neg hn]
        show decodeNat (room + 1) (digitChar (n % 32 + 32) :: (encodeNat (n / 32) ++ rest)) = _
        rw [decodeNat_next (digitValue?_digitChar (by omega)) (by omega) (ih hdiv hroom'),
          Nat.add_sub_cancel, Nat.mod_add_div]

/-- **Quantities read back.** A signed number of 64 bits is read back in front of any text. -/
theorem decode_encode_append {v : Int} (h : fits v = true) (rest : List Char) :
    decode (encode v ++ rest) = .ok (v, rest) := by
  have hread := decodeNat_encodeNat_append (ofSigned_lt h) (by decide) rest
  simp only [decode, encode, hread, toSigned_ofSigned, h, if_true]

/-! ## Digits -/

theorem encodeNat_ne_nil (n : Nat) : encodeNat n ≠ [] := by
  rw [encodeNat]
  split
  · exact List.cons_ne_nil _ _
  · exact List.cons_ne_nil _ _

/-- A quantity has at least one digit. -/
theorem encode_ne_nil (v : Int) : encode v ≠ [] := encodeNat_ne_nil _

/-- No digit separates segments. -/
theorem digitChar_ne_separator {d : Nat} (h : d < 64) : digitChar d ≠ ';' ∧ digitChar d ≠ ',' := by
  have all : ∀ e : Fin 64, digitChar e.val ≠ ';' ∧ digitChar e.val ≠ ',' := by decide
  exact all ⟨d, h⟩

theorem ne_separator_of_mem_encodeNat {n : Nat} {c : Char} (h : c ∈ encodeNat n) :
    c ≠ ';' ∧ c ≠ ',' := by
  induction n using Nat.strongRecOn with
  | ind n ih =>
      rw [encodeNat] at h
      by_cases hn : n < 32
      · rw [if_pos hn, List.mem_singleton] at h
        rw [h]
        exact digitChar_ne_separator (by omega)
      · rw [if_neg hn, List.mem_cons] at h
        rcases h with h | h
        · rw [h]
          exact digitChar_ne_separator (by omega)
        · exact ih (n / 32) (by omega) h

/-- No character of a quantity separates segments. -/
theorem ne_separator_of_mem_encode {v : Int} {c : Char} (h : c ∈ encode v) :
    c ≠ ';' ∧ c ≠ ',' :=
  ne_separator_of_mem_encodeNat h

end SourceMap.Vlq

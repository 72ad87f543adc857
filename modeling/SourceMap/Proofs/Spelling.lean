import Mathlib
import SourceMap.Proofs.Quantities

/-!
# Which texts are quantities

A quantity is read where digits that go on are followed by a last digit, no more than thirteen in
all, and the number they spell has 64 bits. Everywhere else the first character that does not fit
such digits decides the error (`decodeAt_iff_quantity`). What a text starts with is told by the
alphabet of base64 and by the place values of the digits alone (`Quantity`, `Offends`).

A machine gathers the bits of a quantity in a word. Words of 128 bits are wide enough: no shift
loses a bit, and no magnitude is without a negative (`decodeInWords_eq`).
-/

set_option autoImplicit false

namespace SourceMap.Vlq

/-! ## Digits -/

/-- The digits of base64 in the order of their values. -/
def alphabet : List Char :=
  "ABCDEFGHIJKLMNOPQRSTUVWXYZabcdefghijklmnopqrstuvwxyz0123456789+/".toList

/-- Whether a character is the digit with a value. -/
def IsDigit (c : Char) (d : Nat) : Prop := alphabet[d]? = some c

/-- A character that has the value of a digit is written for this value. -/
theorem digitChar_of_digitValue? {c : Char} {d : Nat} (h : digitValue? c = some d) :
    digitChar d = c := by
  have hle {a b : Char} (hab : a ≤ b) : a.toNat ≤ b.toNat := hab
  unfold digitValue? at h
  split at h
  · rename_i hupper
    have hlow : 65 ≤ c.toNat := hle hupper.1
    have hhigh : c.toNat ≤ 90 := hle hupper.2
    obtain rfl : c.toNat - 65 = d := Option.some.inj h
    rw [digitChar, if_pos (by omega), Nat.sub_add_cancel hlow, Char.ofNat_toNat]
  split at h
  · rename_i hlower
    have hlow : 97 ≤ c.toNat := hle hlower.1
    have hhigh : c.toNat ≤ 122 := hle hlower.2
    obtain rfl : c.toNat - 71 = d := Option.some.inj h
    rw [digitChar, if_neg (by omega), if_pos (by omega), Nat.sub_add_cancel (by omega),
      Char.ofNat_toNat]
  split at h
  · rename_i hdecimal
    have hlow : 48 ≤ c.toNat := hle hdecimal.1
    have hhigh : c.toNat ≤ 57 := hle hdecimal.2
    obtain rfl : c.toNat + 4 = d := Option.some.inj h
    rw [digitChar, if_neg (by omega), if_neg (by omega), if_pos (by omega), Nat.add_sub_cancel,
      Char.ofNat_toNat]
  split at h
  · rename_i hplus
    cases h
    exact hplus.symm
  split at h
  · rename_i hslash
    cases h
    exact hslash.symm
  · cases h

theorem isDigit_digitChar {d : Nat} (h : d < 64) : IsDigit (digitChar d) d := by
  have all : ∀ e : Fin 64, alphabet[e.val]? = some (digitChar e.val) := by decide +kernel
  exact all ⟨d, h⟩

/-- **The value of a character is its place in the alphabet.** -/
theorem digitValue?_eq_some_iff {c : Char} {d : Nat} : digitValue? c = some d ↔ IsDigit c d := by
  constructor
  · intro h
    rw [← digitChar_of_digitValue? h]
    exact isDigit_digitChar (digitValue?_lt h)
  · intro h
    have hlength : alphabet.length = 64 := by decide
    have hlt : d < alphabet.length := (List.getElem?_eq_some_iff.mp h).1
    rw [hlength] at hlt
    have hsame : some (digitChar d) = some c := (isDigit_digitChar hlt).symm.trans h
    rw [← Option.some.inj hsame]
    exact digitValue?_digitChar hlt

theorem IsDigit.lt {c : Char} {d : Nat} (h : IsDigit c d) : d < 64 :=
  digitValue?_lt (digitValue?_eq_some_iff.mpr h)

theorem digitValue?_eq_none_iff {c : Char} : digitValue? c = none ↔ ∀ d, ¬ IsDigit c d := by
  rw [Option.eq_none_iff_forall_ne_some]
  exact forall_congr' fun d => not_congr digitValue?_eq_some_iff

/-! ## One more digit -/

theorem decodeNat_foreign {c : Char} (h : ∀ d, ¬ IsDigit c d) (room : Nat) (cs : List Char) :
    decodeNat room (c :: cs) = .error (.invalidDigit c) := by
  rw [decodeNat.eq_def]
  simp only [digitValue?_eq_none_iff.mpr h]

theorem decodeNat_zero {c : Char} {d : Nat} (h : IsDigit c d) (cs : List Char) :
    decodeNat 0 (c :: cs) = .error .quantityOverflow := by
  rw [decodeNat.eq_def]
  simp only [digitValue?_eq_some_iff.mpr h]

/-- After a digit that goes on the rest of the number is read. -/
theorem decodeNat_cons {c : Char} {d : Nat} (h : IsDigit c d) (hmore : 32 ≤ d) (room : Nat)
    (cs : List Char) : decodeNat (room + 1) (c :: cs) =
      (decodeNat room cs).map fun r => (d % 32 + 32 * r.1, r.2) := by
  have hlt := h.lt
  have hmod : d - 32 = d % 32 := by omega
  rw [decodeNat.eq_def]
  simp only [digitValue?_eq_some_iff.mpr h, if_neg (Nat.not_lt.mpr hmore), hmod]
  cases decodeNat room cs <;> rfl

/-! ## Digits in a row -/

/-- The number that digits spell: five bits a digit, the least significant digit first. -/
def spelled (ds : List Nat) : Nat := Nat.ofDigits 32 (ds.map (· % 32))

theorem spelled_cons (d : Nat) (ds : List Nat) : spelled (d :: ds) = d % 32 + 32 * spelled ds := by
  rw [spelled, List.map_cons, Nat.ofDigits_cons]
  rfl

theorem spelled_concat (ds : List Nat) (d : Nat) :
    spelled (ds ++ [d]) = spelled ds + 32 ^ ds.length * (d % 32) := by
  rw [spelled, List.map_append, Nat.ofDigits_append, List.length_map, List.map_singleton,
    Nat.ofDigits_singleton]
  rfl

theorem spelled_lt (ds : List Nat) : spelled ds < 32 ^ ds.length := by
  have hdigits : ∀ d ∈ ds.map (· % 32), d < 32 := by
    intro d hd
    obtain ⟨e, -, rfl⟩ := List.mem_map.mp hd
    exact Nat.mod_lt e (by decide)
  have hlt := Nat.ofDigits_lt_base_pow_length (by decide) hdigits
  rwa [List.length_map] at hlt

/-- The number with a sign that digits spell: the lowest bit is the sign and the rest the
magnitude. -/
def value (ds : List Nat) : Int := (-1) ^ (spelled ds % 2) * (spelled ds / 2 : Nat)

theorem toSigned_spelled (ds : List Nat) : toSigned (spelled ds) = value ds := by
  rw [toSigned, value]
  rcases Nat.mod_two_eq_zero_or_one (spelled ds) with hsign | hsign
  · rw [hsign, if_neg Nat.zero_ne_one, pow_zero, one_mul]
  · rw [hsign, if_pos rfl, pow_one, neg_one_mul]

/-- Whether characters are digits with the given values, all of which carry the continuation bit. -/
def GoOn (front : List Char) (ds : List Nat) : Prop :=
  List.Forall₂ (fun c d => IsDigit c d ∧ 32 ≤ d) front ds

/-- Digits that go on leave the reading to what follows them. -/
theorem decodeNat_append {front : List Char} {ds : List Nat} (h : GoOn front ds) (room : Nat)
    (tail : List Char) : decodeNat (front.length + room) (front ++ tail) =
      (decodeNat room tail).map fun r => (spelled ds + 32 ^ ds.length * r.1, r.2) := by
  induction h with
  | nil =>
      rw [List.length_nil, Nat.zero_add, List.nil_append]
      cases decodeNat room tail with
      | error e => rfl
      | ok r =>
          simp [spelled]
  | @cons c d front ds hdigit _ ih =>
      have hroom : (c :: front).length + room = (front.length + room) + 1 := by
        rw [List.length_cons, Nat.add_right_comm]
      rw [hroom, List.cons_append, decodeNat_cons hdigit.1 hdigit.2, ih]
      cases decodeNat room tail with
      | error e => rfl
      | ok r =>
          simp only [ok_map, spelled_cons, List.length_cons, Nat.pow_succ]
          rw [Nat.mul_add, ← Nat.mul_assoc, Nat.mul_comm 32 (32 ^ ds.length), Nat.add_assoc]

/-! ## What stands at the front of a text -/

/-- Whether a text starts with the digits of a quantity, which have the values `ds`: at most `room`
digits, of which all but the last one go on. -/
def Quantity (room : Nat) (cs : List Char) (ds : List Nat) (rest : List Char) : Prop :=
  ∃ front more c d, cs = front ++ c :: rest ∧ ds = more ++ [d] ∧ GoOn front more ∧
    IsDigit c d ∧ d < 32 ∧ ds.length ≤ room

/-- Whether a text has an offence where a quantity of at most `room` digits should start, and which
error the first one is. -/
inductive Offends (room : Nat) : List Char → Error → Prop
  | missing {front : List Char} {ds : List Nat} : GoOn front ds → front.length ≤ room →
      Offends room front .unterminatedQuantity
  | foreign (front : List Char) {rest : List Char} {ds : List Nat} {c : Char} : GoOn front ds →
      front.length ≤ room → (∀ d, ¬ IsDigit c d) →
      Offends room (front ++ c :: rest) (.invalidDigit c)
  | tooMany (front : List Char) {rest : List Char} {ds : List Nat} {c : Char} {d : Nat} :
      GoOn front ds → front.length = room → IsDigit c d →
      Offends room (front ++ c :: rest) .quantityOverflow

/-- A quantity is as long as it has digits. -/
theorem Quantity.length_eq {room : Nat} {cs rest : List Char} {ds : List Nat}
    (h : Quantity room cs ds rest) : cs.length - rest.length = ds.length := by
  obtain ⟨front, more, c, d, rfl, rfl, hfront, -⟩ := h
  have hlength : front.length = more.length := hfront.length_eq
  simp only [List.length_append, List.length_cons, List.length_nil]
  omega

theorem decodeNat_of_quantity {room : Nat} {cs rest : List Char} {ds : List Nat}
    (h : Quantity room cs ds rest) : decodeNat room cs = .ok (spelled ds, rest) := by
  obtain ⟨front, more, c, d, rfl, rfl, hfront, hdigit, hlast, hroom⟩ := h
  have hlength : front.length = more.length := hfront.length_eq
  rw [List.length_append, List.length_singleton] at hroom
  obtain ⟨left, rfl⟩ := Nat.exists_eq_add_of_le hroom
  have hsplit : more.length + 1 + left = front.length + (left + 1) := by omega
  rw [hsplit, decodeNat_append hfront,
    decodeNat_last (digitValue?_eq_some_iff.mpr hdigit) hlast, ok_map, spelled_concat,
    Nat.mod_eq_of_lt hlast]

theorem decodeNat_of_offends {room : Nat} {cs : List Char} {e : Error} (h : Offends room cs e) :
    decodeNat room cs = .error e := by
  cases h with
  | missing hfront hroom =>
      obtain ⟨left, rfl⟩ := Nat.exists_eq_add_of_le hroom
      have hread := decodeNat_append hfront left []
      rw [List.append_nil] at hread
      rw [hread, decodeNat.eq_def]
      rfl
  | foreign front hfront hroom hnone =>
      obtain ⟨left, rfl⟩ := Nat.exists_eq_add_of_le hroom
      rw [decodeNat_append hfront, decodeNat_foreign hnone, error_map]
  | tooMany front hfront hroom hdigit =>
      subst hroom
      have hread := decodeNat_append hfront 0
      rw [Nat.add_zero] at hread
      rw [hread, decodeNat_zero hdigit, error_map]

/-- A digit that goes on stands before a quantity or an offence alike. -/
theorem Quantity.cons {room : Nat} {cs rest : List Char} {ds : List Nat} {c : Char} {d : Nat}
    (hdigit : IsDigit c d) (hmore : 32 ≤ d) (h : Quantity room cs ds rest) :
    Quantity (room + 1) (c :: cs) (d :: ds) rest := by
  obtain ⟨front, more, c', d', rfl, rfl, hfront, hdigit', hlast, hroom⟩ := h
  exact ⟨c :: front, d :: more, c', d', rfl, rfl, .cons ⟨hdigit, hmore⟩ hfront, hdigit', hlast,
    Nat.succ_le_succ hroom⟩

theorem Offends.cons {room : Nat} {cs : List Char} {e : Error} {c : Char} {d : Nat}
    (hdigit : IsDigit c d) (hmore : 32 ≤ d) (h : Offends room cs e) :
    Offends (room + 1) (c :: cs) e := by
  cases h with
  | missing hfront hroom =>
      exact .missing (.cons ⟨hdigit, hmore⟩ hfront) (Nat.succ_le_succ hroom)
  | foreign front hfront hroom hnone =>
      exact .foreign (c :: front) (.cons ⟨hdigit, hmore⟩ hfront) (Nat.succ_le_succ hroom) hnone
  | tooMany front hfront hroom hdigit' =>
      exact .tooMany (c :: front) (.cons ⟨hdigit, hmore⟩ hfront) (congrArg Nat.succ hroom) hdigit'

/-- **Every text starts with a quantity or has an offence.** -/
theorem exists_quantity_or_offends (cs : List Char) : ∀ room : Nat,
    (∃ ds rest, Quantity room cs ds rest) ∨ ∃ e, Offends room cs e := by
  induction cs with
  | nil => exact fun room => Or.inr ⟨_, .missing .nil (Nat.zero_le room)⟩
  | cons c cs ih =>
      intro room
      cases hvalue : digitValue? c with
      | none =>
          have hnone := digitValue?_eq_none_iff.mp hvalue
          exact Or.inr ⟨_, .foreign [] .nil (Nat.zero_le room) hnone⟩
      | some d =>
          have hdigit := digitValue?_eq_some_iff.mp hvalue
          cases room with
          | zero => exact Or.inr ⟨_, .tooMany [] .nil rfl hdigit⟩
          | succ room =>
              by_cases hlast : d < 32
              · exact Or.inl ⟨[d], cs, [], [], c, d, rfl, rfl, .nil, hdigit, hlast,
                  Nat.succ_le_succ (Nat.zero_le room)⟩
              · have hmore : 32 ≤ d := Nat.not_lt.mp hlast
                rcases ih room with ⟨ds, rest, h⟩ | ⟨e, h⟩
                · exact Or.inl ⟨_, _, h.cons hdigit hmore⟩
                · exact Or.inr ⟨e, h.cons hdigit hmore⟩

/-- A number is read just where a quantity is, and it is the one that the digits spell. -/
theorem decodeNat_eq_ok_iff {room n : Nat} {cs rest : List Char} :
    decodeNat room cs = .ok (n, rest) ↔ ∃ ds, Quantity room cs ds rest ∧ spelled ds = n := by
  constructor
  · intro h
    rcases exists_quantity_or_offends cs room with ⟨ds, rest', hquantity⟩ | ⟨e, hoffends⟩
    · rw [decodeNat_of_quantity hquantity] at h
      cases h
      exact ⟨ds, hquantity, rfl⟩
    · rw [decodeNat_of_offends hoffends] at h
      cases h
  · rintro ⟨ds, hquantity, rfl⟩
    exact decodeNat_of_quantity hquantity

/-- Reading a number fails just where an offence is, and with its error. -/
theorem decodeNat_eq_error_iff {room : Nat} {cs : List Char} {e : Error} :
    decodeNat room cs = .error e ↔ Offends room cs e := by
  constructor
  · intro h
    rcases exists_quantity_or_offends cs room with ⟨ds, rest', hquantity⟩ | ⟨e', hoffends⟩
    · rw [decodeNat_of_quantity hquantity] at h
      cases h
    · rw [decodeNat_of_offends hoffends] at h
      cases h
      exact hoffends
  · exact decodeNat_of_offends

theorem fits_iff {v : Int} : fits v = true ↔ -2 ^ 63 ≤ v ∧ v < 2 ^ 63 := by
  simp only [fits, Bool.and_eq_true, decide_eq_true_eq]
  omega

theorem decode_eq_ok_iff {cs rest : List Char} {v : Int} : decode cs = .ok (v, rest) ↔
    ∃ ds, Quantity 13 cs ds rest ∧ v = value ds ∧ -2 ^ 63 ≤ v ∧ v < 2 ^ 63 := by
  unfold decode
  constructor
  · intro h
    split at h
    · cases h
    · rename_i n rest' hn
      obtain ⟨ds, hquantity, rfl⟩ := decodeNat_eq_ok_iff.mp hn
      split at h
      · rename_i hfits
        cases h
        exact ⟨ds, hquantity, toSigned_spelled ds, fits_iff.mp hfits⟩
      · cases h
  · rintro ⟨ds, hquantity, rfl, hrange⟩
    have hn : decodeNat maxDigits cs = .ok (spelled ds, rest) := decodeNat_of_quantity hquantity
    simp only [hn, toSigned_spelled, fits_iff.mpr hrange, if_true]

/-- Whether no quantity of 64 bits can be read at the front of a text, and with which error: that of
the first offence, or else the magnitude is out of range. -/
def Unreadable (cs : List Char) (e : Error) : Prop :=
  Offends 13 cs e ∨ e = .quantityOverflow ∧ ∃ ds rest, Quantity 13 cs ds rest ∧
    ¬ (-2 ^ 63 ≤ value ds ∧ value ds < 2 ^ 63)

theorem decode_eq_error_iff {cs : List Char} {e : Error} :
    decode cs = .error e ↔ Unreadable cs e := by
  unfold decode
  constructor
  · intro h
    split at h
    · rename_i hn
      cases h
      exact Or.inl (decodeNat_eq_error_iff.mp hn)
    · rename_i n rest hn
      obtain ⟨ds, hquantity, rfl⟩ := decodeNat_eq_ok_iff.mp hn
      split at h
      · cases h
      · rename_i hfits
        cases h
        rw [toSigned_spelled] at hfits
        exact Or.inr ⟨rfl, ds, rest, hquantity, fun hrange => hfits (fits_iff.mpr hrange)⟩
  · rintro (hoffends | ⟨rfl, ds, rest, hquantity, hrange⟩)
    · have hn : decodeNat maxDigits cs = .error e := decodeNat_of_offends hoffends
      simp only [hn]
    · have hn : decodeNat maxDigits cs = .ok (spelled ds, rest) := decodeNat_of_quantity hquantity
      have hfits : fits (value ds) ≠ true := fun h => hrange (fits_iff.mp h)
      simp only [hn, toSigned_spelled, if_neg hfits]

/-! ## In words of 128 bits -/

/-- A word shifted to the left, unless the word is too short for the shift or a bit is lost. -/
def shiftLeft? (w : BitVec 128) (amount : Nat) : Option (BitVec 128) :=
  if amount < 128 ∧ w.toNat * 2 ^ amount < 2 ^ 128 then some (w <<< amount) else none

/-- The negative of a word with sign. The least one has none. -/
def negate? (w : BitVec 128) : Option (BitVec 128) :=
  if w = BitVec.intMin 128 then none else some (-w)

/-- Gathers the five bits of each digit in a word, those of the next digit from the bit `shift` on.
There is no outcome where a shift overflows. -/
def gather (shift : Nat) (word : BitVec 128) :
    List Char → Option (Except Error (BitVec 128 × List Char))
  | [] => some (.error .unterminatedQuantity)
  | c :: rest =>
    match digitValue? c with
    | none => some (.error (.invalidDigit c))
    | some d =>
      if 60 < shift then some (.error .quantityOverflow)
      else
        let digit := BitVec.ofNat 128 d
        match shiftLeft? (digit &&& 31) shift with
        | none => none
        | some bits =>
          if digit &&& 32 = 0 then some (.ok (word ||| bits, rest))
          else gather (shift + 5) (word ||| bits) rest

/-- The value of a word: the lowest bit is the sign, and the others are read as a word with sign.
There is no value where the negation overflows. -/
def valueOfWord? (word : BitVec 128) : Option Int :=
  (if word &&& 1 = 1 then negate? (word >>> 1) else some (word >>> 1)).map BitVec.toInt

/-- Reads one quantity by the arithmetic of 128 bits. There is no outcome where it overflows. -/
def decodeInWords (cs : List Char) : Option (Except Error (Int × List Char)) :=
  match gather 0 0 cs with
  | none => none
  | some (.error e) => some (.error e)
  | some (.ok (word, rest)) =>
    (valueOfWord? word).map fun v =>
      if -2 ^ 63 ≤ v ∧ v < 2 ^ 63 then .ok (v, rest) else .error .quantityOverflow

theorem toNat_and_31 {d : Nat} (h : d < 64) :
    (BitVec.ofNat 128 d &&& 31).toNat = d % 32 := by
  have hmask : (31 : BitVec 128).toNat = 2 ^ 5 - 1 := rfl
  have hd : d < 2 ^ 128 := by omega
  rw [BitVec.toNat_and, hmask, Nat.and_two_pow_sub_one_eq_mod, BitVec.toNat_ofNat,
    Nat.mod_eq_of_lt hd]

theorem and_32_eq_zero_iff {d : Nat} (h : d < 64) : BitVec.ofNat 128 d &&& 32 = 0 ↔ d < 32 := by
  have all : ∀ e : Fin 64, BitVec.ofNat 128 e.val &&& 32 = 0 ↔ e.val < 32 := by decide
  exact all ⟨d, h⟩

/-- Up to the thirteenth digit a shift loses no bit. -/
theorem shiftLeft?_eq {i : Nat} (hi : i < 13) {w : BitVec 128} (hw : w.toNat < 32) :
    ∃ bits, shiftLeft? w (5 * i) = some bits ∧ bits.toNat = 32 ^ i * w.toNat := by
  have hpow : 2 ^ (5 * i) = 32 ^ i := Nat.pow_mul 2 5 i
  have hle : 32 ^ i ≤ 32 ^ 12 := Nat.pow_le_pow_right (by decide) (by omega)
  have hlt : w.toNat * 2 ^ (5 * i) < 2 ^ 128 := by
    rw [hpow]
    calc w.toNat * 32 ^ i
      _ ≤ 31 * 32 ^ 12 := Nat.mul_le_mul (by omega) hle
      _ < 2 ^ 128 := by decide
  refine ⟨w <<< (5 * i), if_pos ⟨by omega, hlt⟩, ?_⟩
  rw [BitVec.toNat_shiftLeft, Nat.shiftLeft_eq, Nat.mod_eq_of_lt hlt, hpow, Nat.mul_comm]

/-- Bits above a number are added to it. -/
theorem toNat_or_of_lt {i n : Nat} {word bits : BitVec 128} (hword : word.toNat < 32 ^ i)
    (hbits : bits.toNat = 32 ^ i * n) : (word ||| bits).toNat = word.toNat + 32 ^ i * n := by
  have hpow : 2 ^ (5 * i) = 32 ^ i := Nat.pow_mul 2 5 i
  rw [← hpow] at hword
  rw [BitVec.toNat_or, hbits, ← hpow, Nat.or_comm, ← Nat.two_pow_add_eq_or_of_lt hword n,
    Nat.add_comm]

/-- With the bits of one more digit a word is still below the next power. -/
theorem toNat_or_lt {i d : Nat} {word bits : BitVec 128} (hword : word.toNat < 32 ^ i)
    (hbits : bits.toNat = 32 ^ i * (d % 32)) : (word ||| bits).toNat < 32 ^ (i + 1) := by
  have hdigit : d % 32 + 1 ≤ 32 := Nat.mod_lt d (by decide)
  calc (word ||| bits).toNat
    _ = word.toNat + 32 ^ i * (d % 32) := toNat_or_of_lt hword hbits
    _ < 32 ^ i + 32 ^ i * (d % 32) := Nat.add_lt_add_right hword _
    _ = 32 ^ i * (d % 32 + 1) := by rw [Nat.mul_succ, Nat.add_comm]
    _ ≤ 32 ^ i * 32 := Nat.mul_le_mul_left _ hdigit
    _ = 32 ^ (i + 1) := (Nat.pow_succ 32 i).symm

/-- **Gathering bits is reading the number**: a word that holds the first `i` digits goes on to hold
what the rest adds to it. -/
theorem gather_eq (cs : List Char) : ∀ (i : Nat) (word : BitVec 128), i ≤ 13 →
    word.toNat < 32 ^ i → gather (5 * i) word cs = some ((decodeNat (13 - i) cs).map fun r =>
      (BitVec.ofNat 128 (word.toNat + 32 ^ i * r.1), r.2)) := by
  induction cs with
  | nil =>
      intro i word _ _
      rw [gather, decodeNat.eq_def]
      rfl
  | cons c cs ih =>
      intro i word hi hword
      rw [gather]
      cases hvalue : digitValue? c with
      | none =>
          rw [decodeNat_foreign (digitValue?_eq_none_iff.mp hvalue)]
          rfl
      | some d =>
          have hdigit := digitValue?_eq_some_iff.mp hvalue
          rcases Nat.lt_or_eq_of_le hi with hlt | rfl
          · -- there is room for this digit, and its bits go above those that are there
            have hmask := toNat_and_31 hdigit.lt
            have hfive : (BitVec.ofNat 128 d &&& 31).toNat < 32 := by
              rw [hmask]
              exact Nat.mod_lt d (by decide)
            obtain ⟨bits, hshift, hbits⟩ := shiftLeft?_eq hlt hfive
            rw [hmask] at hbits
            have hor := toNat_or_of_lt hword hbits
            have hcount : ¬ 60 < 5 * i := by omega
            have hroom : 13 - i = (13 - (i + 1)) + 1 := by omega
            simp only [if_neg hcount, hshift, and_32_eq_zero_iff hdigit.lt, hroom]
            by_cases hlast : d < 32
            · rw [Nat.mod_eq_of_lt hlast] at hor
              rw [if_pos hlast, decodeNat_last hvalue hlast, ok_map, ← hor, BitVec.ofNat_toNat,
                BitVec.setWidth_eq]
            · have hnext : 5 * i + 5 = 5 * (i + 1) := by omega
              rw [if_neg hlast, decodeNat_cons hdigit (Nat.not_lt.mp hlast), hnext,
                ih (i + 1) _ hlt (toNat_or_lt hword hbits), hor]
              cases decodeNat (13 - (i + 1)) cs with
              | error e => rfl
              | ok r =>
                  simp only [ok_map, Nat.pow_succ, Nat.mul_add, Nat.mul_assoc, Nat.add_assoc]
          · rw [Nat.sub_self, decodeNat_zero hdigit]
            rfl

/-- Numbers of thirteen digits have their value in words of 128 bits. -/
theorem valueOfWord?_eq {n : Nat} (h : n < 32 ^ 13) :
    valueOfWord? (BitVec.ofNat 128 n) = some (toSigned n) := by
  have hword : (BitVec.ofNat 128 n).toNat = n := by
    rw [BitVec.toNat_ofNat, Nat.mod_eq_of_lt (by omega)]
  have hmagnitude : (BitVec.ofNat 128 n >>> 1).toNat = n / 2 := by
    rw [BitVec.toNat_ushiftRight, hword, Nat.shiftRight_eq_div_pow]
  have hint : (BitVec.ofNat 128 n >>> 1).toInt = ((n / 2 : Nat) : Int) := by
    rw [BitVec.toInt_eq_toNat_of_lt (by omega), hmagnitude]
  have hsign : BitVec.ofNat 128 n &&& 1 = 1 ↔ n % 2 = 1 := by
    have hmask : (1 : BitVec 128).toNat = 1 := rfl
    rw [← BitVec.toNat_inj, BitVec.toNat_and, hword, hmask, Nat.and_one_is_mod]
  rw [valueOfWord?, toSigned]
  by_cases hneg : n % 2 = 1
  · have hne : BitVec.ofNat 128 n >>> 1 ≠ BitVec.intMin 128 := by
      intro heq
      have hmin := congrArg BitVec.toNat heq
      rw [hmagnitude, BitVec.toNat_intMin] at hmin
      omega
    rw [if_pos (hsign.mpr hneg), if_pos hneg, negate?, if_neg hne, Option.map_some,
      BitVec.toInt_neg_of_ne_intMin hne, hint]
  · rw [if_neg fun h => hneg (hsign.mp h), if_neg hneg, Option.map_some, hint]

/-- **Words of 128 bits do not overflow**, and give what the exact numbers give. -/
theorem decodeInWords_eq (cs : List Char) : decodeInWords cs = some (decode cs) := by
  have hgather := gather_eq cs 0 0 (Nat.zero_le 13) (by decide)
  rw [Nat.mul_zero] at hgather
  rw [decodeInWords, decode, hgather, maxDigits, Nat.sub_zero]
  cases hn : decodeNat 13 cs with
  | error e => rfl
  | ok r =>
      obtain ⟨n, rest⟩ := r
      obtain ⟨ds, ⟨front, more, c, d, -, -, -, -, -, hlength⟩, rfl⟩ := decodeNat_eq_ok_iff.mp hn
      have hlt : spelled ds < 32 ^ 13 :=
        Nat.lt_of_lt_of_le (spelled_lt ds) (Nat.pow_le_pow_right (by decide) hlength)
      have hzero : (0 : BitVec 128).toNat = 0 := rfl
      simp only [ok_map, hzero, Nat.pow_zero, Nat.one_mul, Nat.zero_add, valueOfWord?_eq hlt,
        Option.map_some, fits_iff]

/-! ## Outcomes -/

/-- Whether a text has the given characters from a byte on, which must start a character or be past
the end of the text. -/
def HasFrom (text : String) (start : Nat) (cs : List Char) : Prop :=
  (∃ before, text = before ++ String.ofList cs ∧ start = before.utf8ByteSize) ∨
    text.utf8ByteSize < start ∧ cs = []

theorem dropBytes_of_le {cs : List Char} :
    ∀ {count : Nat}, String.utf8Len cs ≤ count → dropBytes count cs = [] := by
  induction cs with
  | nil =>
      intro count _
      cases count <;> rfl
  | cons c cs ih =>
      intro count h
      have hpos := c.utf8Size_pos
      rw [String.utf8Len_cons] at h
      obtain ⟨count, rfl⟩ : ∃ k, count = k + 1 := ⟨count - 1, by omega⟩
      rw [dropBytes]
      exact ih (by omega)

theorem HasFrom.dropBytes_eq {text : String} {start : Nat} {cs : List Char}
    (h : HasFrom text start cs) : dropBytes start text.toList = cs := by
  rcases h with ⟨before, rfl, rfl⟩ | ⟨hpast, rfl⟩
  · rw [dropBytes_toList_append, String.toList_ofList]
  · apply dropBytes_of_le
    rw [← String.utf8ByteSize_ofList, String.ofList_toList]
    exact Nat.le_of_lt hpast

/-- **A quantity is read just where one is spelled.** From any byte of a text that starts a
character or is past the end, reading gives a value just if the characters from there on start with
at most thirteen digits, all of which but the last one go on, that spell a number of 64 bits. The
value is this number, and reading stops behind the digits. Everywhere else it gives the error of the
first offence. The arithmetic fits words of 128 bits. -/
theorem decodeAt_iff_quantity {text : String} {start : Nat} {cs : List Char}
    (h : HasFrom text start cs) :
    (∀ v stop, decodeAt text start = .ok (v, stop) ↔ ∃ ds rest, Quantity 13 cs ds rest ∧
      v = value ds ∧ -2 ^ 63 ≤ v ∧ v < 2 ^ 63 ∧ stop = start + ds.length) ∧
    (∀ e, decodeAt text start = .error e ↔ Unreadable cs e) ∧
    decodeInWords cs = some (decode cs) := by
  have hread : decodeAt text start = (decode cs).map fun r =>
      (r.1, start + (cs.length - r.2.length)) := by
    simp only [decodeAt, h.dropBytes_eq]
    cases decode cs <;> rfl
  refine ⟨fun v stop => ?_, fun e => ?_, decodeInWords_eq cs⟩
  · rw [hread, map_eq_ok_iff]
    constructor
    · rintro ⟨⟨v', rest⟩, hdecode, hstop⟩
      obtain ⟨rfl, rfl⟩ := Prod.mk.inj hstop
      obtain ⟨ds, hquantity, hv, hlow, hhigh⟩ := decode_eq_ok_iff.mp hdecode
      exact ⟨ds, rest, hquantity, hv, hlow, hhigh, by rw [hquantity.length_eq]⟩
    · rintro ⟨ds, rest, hquantity, hv, hlow, hhigh, rfl⟩
      refine ⟨(v, rest), decode_eq_ok_iff.mpr ⟨ds, hquantity, hv, hlow, hhigh⟩, ?_⟩
      rw [hquantity.length_eq]
  · rw [hread, map_eq_error_iff, decode_eq_error_iff]

/-- The least number of 64 bits between letters of several bytes, the letter behind it, and a byte
past the end. -/
theorem decodeAt_iff_quantity_least :
    let text := "éhgggggggggggQ你"
    let cs := "hgggggggggggQ你".toList
    HasFrom text 2 cs ∧ HasFrom text 15 ['你'] ∧ HasFrom text 99 [] ∧
      decodeAt text 2 = .ok (-9223372036854775808, 15) ∧
      (∃ ds rest, Quantity 13 cs ds rest ∧ -9223372036854775808 = value ds) ∧
      decodeAt text 15 = .error (.invalidDigit '你') ∧
      decodeAt text 99 = .error .unterminatedQuantity ∧
      decodeInWords cs = some (decode cs) := by
  intro text cs
  have hfrom : HasFrom text 2 cs := Or.inl ⟨"é", by decide +kernel, by decide +kernel⟩
  have hletter : HasFrom text 15 ['你'] :=
    Or.inl ⟨"éhgggggggggggQ", by decide +kernel, by decide +kernel⟩
  have hpast : HasFrom text 99 [] := Or.inr ⟨by decide +kernel, rfl⟩
  have hread : decodeAt text 2 = .ok (-9223372036854775808, 15) := by cbv
  have hnone : ∀ d, ¬ IsDigit '你' d := digitValue?_eq_none_iff.mp (by decide)
  obtain ⟨hvalue, -, hwords⟩ := decodeAt_iff_quantity hfrom
  obtain ⟨ds, rest, hquantity, hv, -⟩ := (hvalue _ _).mp hread
  refine ⟨hfrom, hletter, hpast, hread, ⟨ds, rest, hquantity, hv⟩, ?_, ?_, hwords⟩
  · exact ((decodeAt_iff_quantity hletter).2.1 _).mpr
      (Or.inl (.foreign [] .nil (by decide) hnone))
  · exact ((decodeAt_iff_quantity hpast).2.1 _).mpr (Or.inl (.missing .nil (by decide)))

end SourceMap.Vlq

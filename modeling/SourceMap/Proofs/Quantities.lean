import Mathlib
import SourceMap.Proofs.Except
import SourceMap.Proofs.Vlq

/-!
# Quantities in a row

Quantities that stand one after the other in a text can be read one after the other, wherever in the
text they are and whatever follows them, and each reading stops where its quantity ends
(`decodeRow_appendAll`). What is read at a place takes no fewer digits there than the quantity that
is written for it (`length_encode_le`). Many texts are read as the same number, such as `B` and `gA`
for zero, so this does not follow from reading back what was written.

Places are counted in bytes, of which a digit takes one.
-/

set_option autoImplicit false

namespace SourceMap.Vlq

/-! ## Places in a text -/

/-- As many bytes as a text has lead to what follows it. -/
theorem dropBytes_utf8Len_append (cs rest : List Char) :
    dropBytes (String.utf8Len cs) (cs ++ rest) = rest := by
  induction cs with
  | nil =>
      rw [String.utf8Len_nil, List.nil_append, dropBytes]
  | cons c cs ih =>
      have hpos := c.utf8Size_pos
      obtain ⟨count, hcount⟩ : ∃ count, String.utf8Len (c :: cs) = count + 1 := by
        rw [String.utf8Len_cons]
        exact ⟨String.utf8Len cs + c.utf8Size - 1, by omega⟩
      have hrest : count + 1 - c.utf8Size = String.utf8Len cs := by
        rw [← hcount, String.utf8Len_cons]
        omega
      rw [hcount, List.cons_append, dropBytes, hrest, ih]

theorem dropBytes_toList_append (before after : String) :
    dropBytes before.utf8ByteSize (before ++ after).toList = after.toList := by
  have hsize : before.utf8ByteSize = String.utf8Len before.toList := by
    rw [← String.utf8ByteSize_ofList, String.ofList_toList]
  rw [hsize, String.toList_append, dropBytes_utf8Len_append]

/-- A digit takes one byte. -/
theorem utf8Size_digitChar {d : Nat} (h : d < 64) : (digitChar d).utf8Size = 1 := by
  have all : ∀ e : Fin 64, (digitChar e.val).utf8Size = 1 := by decide
  exact all ⟨d, h⟩

theorem utf8Len_encodeNat (n : Nat) : String.utf8Len (encodeNat n) = (encodeNat n).length := by
  induction n using Nat.strongRecOn with
  | ind n ih =>
      rw [encodeNat]
      by_cases hn : n < 32
      · rw [if_pos hn, String.utf8Len_cons, utf8Size_digitChar (by omega)]
        rfl
      · rw [if_neg hn, String.utf8Len_cons, utf8Size_digitChar (by omega), ih (n / 32) (by omega),
          List.length_cons]

/-- A quantity takes as many bytes as it has digits. -/
theorem utf8Len_encode (v : Int) : String.utf8Len (encode v) = (encode v).length :=
  utf8Len_encodeNat _

/-! ## Reading in a row -/

theorem toList_appendAll (text : String) (vs : List Int) :
    (appendAll text vs).toList = text.toList ++ vs.flatMap encode := by
  rw [appendAll, String.toList_append, String.toList_ofList]

theorem appendAll_nil (text : String) : appendAll text [] = text := by
  apply String.toList_inj.mp
  rw [toList_appendAll, List.flatMap_nil, List.append_nil]

/-- Writing more values goes on where the ones before them end. -/
theorem appendAll_append (text : String) (vs more : List Int) :
    appendAll text (vs ++ more) = appendAll (appendAll text vs) more := by
  apply String.toList_inj.mp
  rw [toList_appendAll, toList_appendAll, toList_appendAll, List.flatMap_append, List.append_assoc]

theorem utf8ByteSize_appendAll_singleton (text : String) (v : Int) :
    (appendAll text [v]).utf8ByteSize = text.utf8ByteSize + (encode v).length := by
  rw [appendAll, String.utf8ByteSize_append, String.utf8ByteSize_ofList, List.flatMap_singleton,
    utf8Len_encode]

/-- A number of 64 bits is read behind the text it was written after, up to where it ends. -/
theorem decodeAt_appendAll_singleton {v : Int} (h : fits v = true) (before after : String) :
    decodeAt (appendAll before [v] ++ after) before.utf8ByteSize =
      .ok (v, (appendAll before [v]).utf8ByteSize) := by
  have hchars : (appendAll before [v] ++ after).toList =
      (before ++ String.ofList (encode v ++ after.toList)).toList := by
    rw [String.toList_append, toList_appendAll, List.flatMap_singleton, String.toList_append,
      String.toList_ofList, List.append_assoc]
  have hdrop : dropBytes before.utf8ByteSize (appendAll before [v] ++ after).toList =
      encode v ++ after.toList := by
    rw [hchars, dropBytes_toList_append, String.toList_ofList]
  have hdecode := decode_encode_append h after.toList
  simp only [decodeAt, hdrop, hdecode]
  rw [List.length_append, Nat.add_sub_cancel, utf8ByteSize_appendAll_singleton]

/-- Reads quantities, each from where the one before it ended, and returns their values and where
the last one ended. -/
def decodeRow (text : String) : (count start : Nat) → Except Error (List Int × Nat)
  | 0, start => .ok ([], start)
  | count + 1, start => do
    let (v, stop) ← decodeAt text start
    let (vs, stop) ← decodeRow text count stop
    return (v :: vs, stop)

/-- Numbers of 64 bits are read one after the other behind any text and in front of any text. -/
theorem decodeRow_appendAll_append (after : String) {vs : List Int} :
    (∀ v ∈ vs, fits v = true) → ∀ before : String,
      decodeRow (appendAll before vs ++ after) vs.length before.utf8ByteSize =
        .ok (vs, (appendAll before vs).utf8ByteSize) := by
  induction vs with
  | nil =>
      intro _ before
      rw [appendAll_nil, List.length_nil, decodeRow]
  | cons v vs ih =>
      intro hfits before
      -- the values after the first are written behind it, and it is read in front of them
      have hsplit : appendAll before (v :: vs) = appendAll (appendAll before [v]) vs :=
        appendAll_append before [v] vs
      have hfront : appendAll (appendAll before [v]) vs ++ after =
          appendAll before [v] ++ (String.ofList (vs.flatMap encode) ++ after) :=
        String.append_assoc
      have hfirst := decodeAt_appendAll_singleton (hfits v List.mem_cons_self) before
        (String.ofList (vs.flatMap encode) ++ after)
      have hrest := ih (fun w hw => hfits w (List.mem_cons_of_mem v hw)) (appendAll before [v])
      rw [← hfront] at hfirst
      rw [hsplit, List.length_cons, decodeRow, hfirst, ok_bind]
      dsimp only
      rw [hrest, ok_bind]
      rfl

/-! ## Shortest quantities -/

/-- A number below a power of 32 is written with no more digits than the power has factors. -/
theorem length_encodeNat_le {k : Nat} (hk : k ≠ 0) :
    ∀ {n : Nat}, n < 32 ^ k → (encodeNat n).length ≤ k := by
  induction k with
  | zero => exact absurd rfl hk
  | succ k ih =>
      intro n hn
      rw [encodeNat]
      by_cases hlast : n < 32
      · rw [if_pos hlast]
        exact Nat.succ_le_succ (Nat.zero_le k)
      · have hpow : 32 ^ (k + 1) = 32 ^ k * 32 := Nat.pow_succ 32 k
        have hdiv : n / 32 < 32 ^ k := by
          rw [Nat.div_lt_iff_lt_mul (by decide)]
          omega
        have hk' : k ≠ 0 := by
          rintro rfl
          omega
        rw [if_neg hlast]
        exact Nat.succ_le_succ (ih hk' hdiv)

/-- A digit has six bits. -/
theorem digitValue?_lt {c : Char} {d : Nat} (h : digitValue? c = some d) : d < 64 := by
  have hle {a b : Char} (hab : a ≤ b) : a.toNat ≤ b.toNat := hab
  unfold digitValue? at h
  split at h
  · rename_i hupper
    have hbound : c.toNat ≤ 90 := hle hupper.2
    cases h
    omega
  split at h
  · rename_i hlower
    have hbound : c.toNat ≤ 122 := hle hlower.2
    cases h
    omega
  split at h
  · rename_i hdecimal
    have hbound : c.toNat ≤ 57 := hle hdecimal.2
    cases h
    omega
  split at h
  · cases h
    decide
  split at h
  · cases h
    decide
  · cases h

/-- Digits that are read as a number are enough for it. -/
theorem exists_digits_of_decodeNat {cs : List Char} : ∀ {room n : Nat} {rest : List Char},
    decodeNat room cs = .ok (n, rest) → ∃ ds, ds ≠ [] ∧ cs = ds ++ rest ∧ n < 32 ^ ds.length := by
  induction cs with
  | nil =>
      intro room n rest h
      rw [decodeNat.eq_def] at h
      cases h
  | cons c cs ih =>
      intro room n rest h
      rw [decodeNat.eq_def] at h
      dsimp only at h
      split at h
      · cases h
      · cases h
      · rename_i d room hd
        split at h
        · rename_i hlast
          cases h
          exact ⟨[c], List.cons_ne_nil _ _, rfl, by simpa using hlast⟩
        · split at h
          · cases h
          · rename_i m rest' hm
            cases h
            obtain ⟨ds, -, hcs, hlt⟩ := ih hm
            refine ⟨c :: ds, List.cons_ne_nil _ _, by rw [hcs, List.cons_append], ?_⟩
            have hdigit := digitValue?_lt hd
            rw [List.length_cons, Nat.pow_succ]
            omega

/-- The number made for what a number spells is not above it. Only the second spelling of zero is
above the one that is written. -/
theorem ofSigned_toSigned_le (n : Nat) : ofSigned (toSigned n) ≤ n := by
  unfold ofSigned toSigned
  split <;> split <;> omega

/-- What is read takes at least the digits that are written for it. -/
theorem length_encode_le {cs rest : List Char} {v : Int} (h : decode cs = .ok (v, rest)) :
    ∃ ds, cs = ds ++ rest ∧ (encode v).length ≤ ds.length := by
  unfold decode at h
  split at h
  · cases h
  · rename_i n rest' hn
    split at h
    · cases h
      obtain ⟨ds, hne, hcs, hlt⟩ := exists_digits_of_decodeNat hn
      have hlength : ds.length ≠ 0 := fun h => hne (List.length_eq_zero_iff.mp h)
      exact ⟨ds, hcs, length_encodeNat_le hlength (Nat.lt_of_le_of_lt (ofSigned_toSigned_le n) hlt)⟩
    · cases h

/-! ## Rows of 64 bits -/

theorem fits_toInt (v : Int64) : fits v.toInt = true := by
  have hlow := v.le_toInt
  have hhigh := v.toInt_lt
  simp only [fits, Bool.and_eq_true, decide_eq_true_eq]
  omega

/-- **Rows of quantities read back, and each quantity is the shortest one.** Whatever stands before
a row of quantities, after it and between, any of its first quantities are read one after the other
with their values, from where the row starts up to where the last of them ends. What is read at a
place ends there no sooner than the quantity that is written for it. -/
theorem decodeRow_appendAll :
    (∀ (before after : String) (vs more : List Int64),
      decodeRow (appendAll before ((vs ++ more).map Int64.toInt) ++ after) vs.length
          before.utf8ByteSize =
        .ok (vs.map Int64.toInt, (appendAll before (vs.map Int64.toInt)).utf8ByteSize)) ∧
    ∀ (text : String) (start stop : Nat) (v : Int),
      decodeAt text start = .ok (v, stop) → start + (encode v).length ≤ stop := by
  constructor
  · intro before after vs more
    have hfits : ∀ v ∈ vs.map Int64.toInt, fits v = true := by
      intro v hv
      obtain ⟨w, -, rfl⟩ := List.mem_map.mp hv
      exact fits_toInt w
    -- what is written behind the first quantities is only another text after them
    have hfront : appendAll before ((vs ++ more).map Int64.toInt) ++ after =
        appendAll before (vs.map Int64.toInt) ++
          (String.ofList ((more.map Int64.toInt).flatMap encode) ++ after) := by
      rw [List.map_append, appendAll_append, appendAll, String.append_assoc]
    have hrow := decodeRow_appendAll_append
      (String.ofList ((more.map Int64.toInt).flatMap encode) ++ after) hfits before
    rw [List.length_map] at hrow
    rw [hfront, hrow]
  · intro text start stop v h
    simp only [decodeAt] at h
    split at h
    · cases h
    · rename_i w rest hdecode
      cases h
      obtain ⟨ds, hcs, hlength⟩ := length_encode_le hdecode
      rw [hcs, List.length_append]
      omega

/-- The least and the largest number of 64 bits behind a letter of two bytes, and zero after them in
a spelling that is too long. -/
theorem decodeRow_appendAll_extremes :
    let vs : List Int64 := [Int64.minValue, Int64.maxValue]
    let text := appendAll "é" (vs.map Int64.toInt) ++ "gA"
    text = "éhgggggggggggQ+///////////PgA" ∧
      decodeRow text 2 2 = .ok ([-9223372036854775808, 9223372036854775807], 28) ∧
      decodeAt text 28 = .ok (0, 30) ∧ 28 + (encode 0).length ≤ 30 := by
  intro vs text
  obtain ⟨hrow, hshortest⟩ := decodeRow_appendAll
  have hwritten : appendAll "é" (vs.map Int64.toInt) = "éhgggggggggggQ+///////////P" := by
    cbv
  have htext : text = "éhgggggggggggQ+///////////PgA" := by
    show appendAll "é" (vs.map Int64.toInt) ++ "gA" = _
    rw [hwritten]
    rfl
  have hread : decodeAt text 28 = .ok (0, 30) := by
    rw [htext]
    cbv
  refine ⟨htext, ?_, hread, hshortest _ _ _ _ hread⟩
  have h := hrow "é" "gA" vs []
  rw [List.append_nil, hwritten] at h
  rw [htext]
  exact h

end SourceMap.Vlq

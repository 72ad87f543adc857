import Mathlib
import SourceMap.Json.Parser
import SourceMap.Json.Printer
import SourceMap.Proofs.Json.Token

/-!
# Reading and printing values

A value is read from any text that spells it, if its numbers are portable (`Portable.parse?_eq`):
the text is read as the tokens of the value (`Portable.isRead`), and these are put together to this
value again, wherever they stand in a document (`delivers`). What is printed for a value spells it
(`spelledBy_render`).
-/

set_option autoImplicit false

namespace SourceMap.Json

namespace Value

/-! ## Reading tokens -/

open SourceMap.Json.Parser (deliver)

/-- Whether the tokens of a value are read as this value, wherever it stands. -/
def Delivers (v : Value) : Prop :=
  ∀ (stack : List Frame) (rest : List Token),
    (v.tokensThen rest).foldlM Parser.step { stack, expect := .value } =
      rest.foldlM Parser.step (deliver v stack)

/-- The elements of an array are read after those before them. -/
theorem foldlM_elementsThen {vs : List Value} : ∀ {v : Value}, (∀ w ∈ v :: vs, Delivers w) →
    ∀ (before : List Value) (stack : List Frame) (rest : List Token),
      (elementsThen (v :: vs) (.endArray :: rest)).foldlM Parser.step
          { stack := .element before :: stack, expect := .value } =
        rest.foldlM Parser.step (deliver (.array (before.reverse ++ v :: vs)) stack) := by
  induction vs with
  | nil =>
      intro v hv before stack rest
      have hdelivers := hv v List.mem_cons_self
      rw [elementsThen, hdelivers, ← List.reverse_cons]
      rfl
  | cons w vs ih =>
      intro v hv before stack rest
      have hdelivers := hv v List.mem_cons_self
      have hrest := ih (fun u hu => hv u (List.mem_cons_of_mem v hu)) (v :: before) stack rest
      rw [List.reverse_cons, List.append_assoc] at hrest
      rw [elementsThen, hdelivers]
      exact hrest

/-- The fields of an object are read after those before them. -/
theorem foldlM_fieldsThen {fs : List (String × Value)} : ∀ {f : String × Value},
    (∀ g ∈ f :: fs, Delivers g.2) →
    ∀ (before : List (String × Value)) (stack : List Frame) (rest : List Token),
      (fieldsThen (f :: fs) (.endObject :: rest)).foldlM Parser.step
          { stack, expect := .key before } =
        rest.foldlM Parser.step (deliver (.object (before.reverse ++ f :: fs)) stack) := by
  induction fs with
  | nil =>
      rintro ⟨key, v⟩ hv before stack rest
      have hdelivers := hv (key, v) List.mem_cons_self (.field before key :: stack)
      rw [fieldsThen, ← List.reverse_cons]
      exact hdelivers (.endObject :: rest)
  | cons g fs ih =>
      rintro ⟨key, v⟩ hv before stack rest
      have hdelivers := hv (key, v) List.mem_cons_self (.field before key :: stack)
      have hrest := ih (fun h hh => hv h (List.mem_cons_of_mem _ hh)) ((key, v) :: before) stack
        rest
      rw [List.reverse_cons, List.append_assoc] at hrest
      rw [fieldsThen]
      exact (hdelivers _).trans hrest

/-- No value ends an array. -/
theorem exists_tokensThen_eq_cons (v : Value) (rest : List Token) :
    ∃ t ts, v.tokensThen rest = t :: ts ∧ t ≠ .endArray := by
  cases v with
  | _ => exact ⟨_, _, rfl, by simp⟩

theorem exists_elementsThen_eq_cons (v : Value) (vs : List Value) (rest : List Token) :
    ∃ t ts, elementsThen (v :: vs) rest = t :: ts ∧ t ≠ .endArray := by
  cases vs with
  | nil => exact exists_tokensThen_eq_cons v rest
  | cons w vs => exact exists_tokensThen_eq_cons v _

theorem Delivers.array {vs : List Value} (h : ∀ v ∈ vs, Delivers v) : Delivers (.array vs) := by
  intro stack rest
  cases vs with
  | nil => rfl
  | cons v vs =>
      have helements := foldlM_elementsThen h [] stack rest
      obtain ⟨t, ts, heq, hne⟩ := exists_elementsThen_eq_cons v vs (.endArray :: rest)
      -- the first element is read like any other one
      have hstep : Parser.step { stack, expect := .firstElement } t =
          Parser.step { stack := .element [] :: stack, expect := .value } t := by
        cases t with
        | endArray => exact absurd rfl hne
        | _ => rfl
      rw [heq, List.foldlM_cons, ← hstep] at helements
      rw [tokensThen, heq]
      exact helements

theorem Delivers.object {fields : List (String × Value)} (h : ∀ f ∈ fields, Delivers f.2) :
    Delivers (.object fields) := by
  intro stack rest
  cases fields with
  | nil => rfl
  | cons f fs =>
      have hfields := foldlM_fieldsThen h [] stack rest
      rw [tokensThen]
      cases fs with
      | nil => exact hfields
      | cons g fs => exact hfields

/-- **The tokens of a value are read as this value.** -/
theorem delivers (v : Value) : Delivers v := by
  induction v using Value.induction with
  | hnull => exact fun stack rest => rfl
  | hbool b => exact fun stack rest => rfl
  | hnumber n => exact fun stack rest => rfl
  | hstring s => exact fun stack rest => rfl
  | harray vs ih => exact .array ih
  | hobject fields ih => exact .object ih

theorem ofTokens?_tokens (v : Value) : ofTokens? v.tokens = some v := by
  have hread := v.delivers [] []
  rw [ofTokens?, tokens, hread]
  rfl

/-! ## Rows of tokens -/

/-- The tokens of elements come before whatever follows them. -/
theorem elementsThen_eq {vs : List Value}
    (h : ∀ v ∈ vs, ∀ rest, v.tokensThen rest = v.tokens ++ rest) (rest : List Token) :
    elementsThen vs rest = elementsThen vs [] ++ rest := by
  induction vs with
  | nil => rfl
  | cons v vs ih =>
      have hv := h v List.mem_cons_self
      cases vs with
      | nil => exact hv rest
      | cons w vs =>
          rw [elementsThen, elementsThen, hv, hv (.comma :: _),
            ih fun u hu => h u (List.mem_cons_of_mem v hu), List.append_assoc, List.cons_append]

theorem fieldsThen_eq {fs : List (String × Value)}
    (h : ∀ f ∈ fs, ∀ rest, f.2.tokensThen rest = f.2.tokens ++ rest) (rest : List Token) :
    fieldsThen fs rest = fieldsThen fs [] ++ rest := by
  induction fs with
  | nil => rfl
  | cons f fs ih =>
      obtain ⟨key, v⟩ := f
      have hv := h (key, v) List.mem_cons_self
      dsimp only at hv
      cases fs with
      | nil =>
          rw [fieldsThen, fieldsThen, hv]
          rfl
      | cons g fs =>
          rw [fieldsThen, fieldsThen, hv, hv (.comma :: _),
            ih fun k hk => h k (List.mem_cons_of_mem _ hk)]
          simp

theorem tokensThen_eq (v : Value) : ∀ rest, v.tokensThen rest = v.tokens ++ rest := by
  induction v using Value.induction with
  | hnull => exact fun rest => rfl
  | hbool b => exact fun rest => rfl
  | hnumber n => exact fun rest => rfl
  | hstring s => exact fun rest => rfl
  | harray vs ih =>
      intro rest
      rw [tokens, tokensThen, tokensThen, elementsThen_eq ih, elementsThen_eq ih [.endArray]]
      simp
  | hobject fields ih =>
      intro rest
      rw [tokens, tokensThen, tokensThen, fieldsThen_eq ih, fieldsThen_eq ih [.endObject]]
      simp

theorem tokens_array (vs : List Value) :
    (array vs).tokens = [] ++ .beginArray :: (elementsThen vs [] ++ [.endArray]) := by
  rw [tokens, tokensThen, elementsThen_eq fun v _ => v.tokensThen_eq]
  rfl

theorem tokens_object (fields : List (String × Value)) :
    (object fields).tokens = [] ++ .beginObject :: (fieldsThen fields [] ++ [.endObject]) := by
  rw [tokens, tokensThen, fieldsThen_eq fun f _ => f.2.tokensThen_eq]
  rfl

theorem elementsThen_cons_cons (v w : Value) (vs : List Value) :
    elementsThen (v :: w :: vs) [] = v.tokens ++ .comma :: elementsThen (w :: vs) [] := by
  rw [elementsThen, tokensThen_eq]

theorem fieldsThen_cons_cons (key : String) (v : Value) (f : String × Value)
    (fs : List (String × Value)) :
    fieldsThen ((key, v) :: f :: fs) [] =
      ([.string key] ++ .colon :: v.tokens) ++ .comma :: fieldsThen (f :: fs) [] := by
  rw [fieldsThen, tokensThen_eq]
  rfl

/-! ## Reading texts -/

open Lexer (Reads reads_nil reads_blank reads_word reads_string)

/-- Whether whatever spells a value is read as the tokens of the value. -/
def IsRead (v : Value) : Prop :=
  ∀ cs, v.SpelledBy cs → Reads cs v.tokens

theorem reads_elements {vs : List Value} : ∀ {cs : List Char}, (∀ v ∈ vs, IsRead v) →
    ElementsSpelledBy vs cs → Reads cs (elementsThen vs []) := by
  induction vs with
  | nil => exact fun _ hcs => reads_blank hcs
  | cons v vs ih =>
      intro cs hv hcs
      have hfirst := hv v List.mem_cons_self
      cases vs with
      | nil => exact Reads.padded hfirst hcs
      | cons w vs =>
          obtain ⟨first, rest, rfl, htext, hrest⟩ := hcs
          have hreads := ih (fun u hu => hv u (List.mem_cons_of_mem v hu)) hrest
          rw [elementsThen_cons_cons]
          exact (Reads.padded hfirst htext).mark hreads (by decide) (by decide) (fun _ => rfl) rfl

theorem IsRead.field {v : Value} (h : v.IsRead) {key : String} {cs : List Char}
    (hcs : IsField key v.SpelledBy cs) : Reads cs ([.string key] ++ .colon :: v.tokens) := by
  obtain ⟨name, text, rfl, hname, htext⟩ := hcs
  have hkey : Reads name [.string key] := Reads.padded (fun _ => reads_string) hname
  exact hkey.mark (Reads.padded h htext) (by decide) (by decide) (fun _ => rfl) rfl

theorem reads_fields {fs : List (String × Value)} : ∀ {cs : List Char}, (∀ f ∈ fs, IsRead f.2) →
    FieldsSpelledBy fs cs → Reads cs (fieldsThen fs []) := by
  induction fs with
  | nil => exact fun _ hcs => reads_blank hcs
  | cons f fs ih =>
      obtain ⟨key, v⟩ := f
      intro cs hf hcs
      have hfirst : IsRead v := hf (key, v) List.mem_cons_self
      cases fs with
      | nil => exact hfirst.field hcs
      | cons g fs =>
          obtain ⟨first, rest, rfl, htext, hrest⟩ := hcs
          have hreads := ih (fun k hk => hf k (List.mem_cons_of_mem _ hk)) hrest
          rw [fieldsThen_cons_cons]
          exact (hfirst.field htext).mark hreads (by decide) (by decide) (fun _ => rfl) rfl

/-- **What spells a value is read as its tokens**, if its numbers are portable. -/
theorem Portable.isRead {v : Value} (h : v.Portable) : v.IsRead := by
  induction h with
  | null =>
      rintro cs rfl
      exact reads_word Lexer.spellsWord_null
  | bool b =>
      intro cs hcs
      cases b with
      | true => rw [show cs = _ from hcs]; exact reads_word Lexer.spellsWord_true
      | false => rw [show cs = _ from hcs]; exact reads_word Lexer.spellsWord_false
  | number hlt =>
      intro cs hcs
      cases (show SpellsNumber cs _ from hcs) with
      | whole negative hds =>
          refine reads_word (Lexer.spellsWord_whole negative hds ?_)
          cases negative <;> simpa [withSign] using hlt
  | string s => exact fun cs hcs => reads_string hcs
  | @array vs _ ih =>
      rintro cs ⟨inner, rfl, hinner⟩
      rw [tokens_array]
      have hend := (reads_elements ih hinner).mark reads_nil (c := ']') (by decide) (by decide)
        (fun _ => rfl) rfl
      exact reads_nil.mark hend (by decide) (by decide) (fun _ => rfl) rfl
  | @object fields _ ih =>
      rintro cs ⟨inner, rfl, hinner⟩
      rw [tokens_object]
      have hend := (reads_fields ih hinner).mark reads_nil (c := '\x7d') (by decide) (by decide)
        (fun _ => rfl) rfl
      exact reads_nil.mark hend (by decide) (by decide) (fun _ => rfl) rfl

/-- **A value with portable numbers is read from any text that spells it.** -/
theorem Portable.parse?_eq {v : Value} (h : v.Portable) {text : String}
    (htext : v.DocumentSpelledBy text) : parse? text = some v := by
  have hreads : Reads text.toList v.tokens := Reads.padded h.isRead htext
  obtain ⟨l, hl, hholds⟩ := hreads {} [] (.settled []) (by simp)
  rw [List.nil_append] at hholds
  rw [parse?, Token.scan?, hl, Option.bind_some, hholds.finish?, Option.bind_some, ofTokens?_tokens]

/-! ## Printing -/

end Value

theorem isDigits_toDigits (n : Nat) : IsDigits (Nat.toDigits 10 n) :=
  ⟨Nat.toDigits_ne_nil, fun _ h => Nat.isDigit_of_mem_toDigits (by decide) (by decide) h⟩

/-- A number other than zero does not start with a zero. -/
theorem head?_toDigits_ne {n : Nat} : 0 < n → (Nat.toDigits 10 n).head? ≠ some '0' := by
  induction n using Nat.strongRecOn with
  | ind n ih =>
      intro hpos
      by_cases hlt : n < 10
      · rw [Nat.toDigits_of_lt_base hlt]
        interval_cases n <;> decide
      · have hquotient : 0 < n / 10 := by omega
        have hne : Nat.toDigits 10 (n / 10) ≠ [] := Nat.toDigits_ne_nil
        rw [Nat.toDigits_of_base_le (by decide) (by omega), List.head?_append_of_ne_nil _ hne]
        exact ih (n / 10) (by omega) hquotient

theorem isWhole_toDigits (n : Nat) : IsWhole (Nat.toDigits 10 n) := by
  refine ⟨isDigits_toDigits n, fun hzero => ?_⟩
  obtain rfl : n = 0 := by
    by_contra hne
    exact head?_toDigits_ne (Nat.pos_of_ne_zero hne) hzero
  rfl

theorem valueOf_toDigits (n : Nat) : valueOf (Nat.toDigits 10 n) = n :=
  Nat.ofDigitChars_ten_toDigits

theorem intChars_eq (n : Int) :
    Number.intChars n = minus (decide (n < 0)) ++ Nat.toDigits 10 n.natAbs := by
  by_cases h : n < 0 <;> simp [Number.intChars, minus, h]

theorem withSign_natAbs (n : Int) : withSign (decide (n < 0)) n.natAbs = n := by
  by_cases h : n < 0
  · rw [withSign, decide_eq_true h, if_pos rfl]
    omega
  · rw [withSign, decide_eq_false h, if_neg Bool.false_ne_true]
    omega

/-- **A number is printed as one of its spellings.** -/
theorem spellsNumber_toChars (n : Number) : SpellsNumber n.toChars n := by
  cases n with
  | whole n =>
      have hspells := SpellsNumber.whole (decide (n < 0)) (isWhole_toDigits n.natAbs)
      rwa [valueOf_toDigits, withSign_natAbs, ← intChars_eq] at hspells
  | decimal mantissa exponent =>
      have hexponent := SpellsExponent.signed (decide (exponent < 0)) (Or.inl rfl)
        (isDigits_toDigits exponent.natAbs)
      have hspells := SpellsNumber.exponent (decide (mantissa < 0))
        (isWhole_toDigits mantissa.natAbs) .none hexponent
      rw [List.append_nil, List.append_nil, valueOf_toDigits, valueOf_toDigits, withSign_natAbs,
        withSign_natAbs, ← intChars_eq, ← intChars_eq] at hspells
      simpa [Number.toChars] using hspells

theorem isHex_hexChar : ∀ d < 16, IsHex (Token.hexChar d) d := by
  intro d hd
  left
  revert d
  decide +kernel

/-- **A character is printed inside a string as one of its spellings.** -/
theorem spellsChar_escaped (c : Char) : SpellsChar (Token.escaped c) c := by
  unfold Token.escaped
  split_ifs with hquote hslash hb ht hn hf hr hcontrol
  · subst hquote; exact .short (by decide)
  · subst hslash; exact .short (by decide)
  · subst hb; exact .short (by decide)
  · subst ht; exact .short (by decide)
  · subst hn; exact .short (by decide)
  · subst hf; exact .short (by decide)
  · subst hr; exact .short (by decide)
  · -- by number, with two digits after two zeros
    have hunit := SpellsUnit.digits (isHex_hexChar 0 (by decide)) (isHex_hexChar 0 (by decide))
      (isHex_hexChar (c.toNat / 16) (by omega)) (isHex_hexChar (c.toNat % 16) (by omega))
    have hvalue : 16 * (16 * (16 * 0 + 0) + c.toNat / 16) + c.toNat % 16 = c.toNat := by omega
    rw [hvalue] at hunit
    have hspells := SpellsChar.unit hunit (Or.inl (by omega))
    rwa [Char.ofNat_toNat] at hspells
  · exact .self hquote hslash (Nat.le_of_not_lt hcontrol)

theorem spellsString_toChars (s : String) : SpellsString (Token.toChars (.string s)) s := by
  refine ⟨s.toList.flatMap Token.escaped, rfl, ?_⟩
  induction s.toList with
  | nil => exact .nil
  | cons c cs ih => exact .cons (spellsChar_escaped c) ih

namespace Value

/-- The characters of a row of tokens. -/
def spelling (ts : List Token) : List Char :=
  ts.flatMap Token.toChars

theorem elementsSpelledBy_spelling {vs : List Value}
    (h : ∀ v ∈ vs, v.SpelledBy (spelling v.tokens)) :
    ElementsSpelledBy vs (spelling (elementsThen vs [])) := by
  induction vs with
  | nil => exact blank_nil
  | cons v vs ih =>
      have hfirst := Padded.of (h v List.mem_cons_self)
      cases vs with
      | nil => exact hfirst
      | cons w vs =>
          rw [elementsThen_cons_cons]
          refine ⟨_, _, ?_, hfirst, ih fun u hu => h u (List.mem_cons_of_mem v hu)⟩
          simp [spelling, Token.toChars]

theorem fieldsSpelledBy_spelling {fs : List (String × Value)}
    (h : ∀ f ∈ fs, f.2.SpelledBy (spelling f.2.tokens)) :
    FieldsSpelledBy fs (spelling (fieldsThen fs [])) := by
  induction fs with
  | nil => exact blank_nil
  | cons f fs ih =>
      obtain ⟨key, v⟩ := f
      have hv := h (key, v) List.mem_cons_self
      have hfirst : IsField key v.SpelledBy
          (Token.toChars (.string key) ++ ':' :: spelling v.tokens) :=
        ⟨_, _, rfl, .of (spellsString_toChars key), .of hv⟩
      cases fs with
      | nil => exact hfirst
      | cons g fs =>
          rw [fieldsThen_cons_cons]
          refine ⟨_, _, ?_, hfirst, ih fun k hk => h k (List.mem_cons_of_mem _ hk)⟩
          simp [spelling, Token.toChars]

/-- **What is printed for a value spells it.** -/
theorem spelledBy_render (v : Value) : v.SpelledBy v.render.toList := by
  rw [render, String.toList_ofList]
  induction v using Value.induction with
  | hnull => rfl
  | hbool b => cases b <;> rfl
  | hnumber n =>
      show SpellsNumber (n.toChars ++ []) n
      rw [List.append_nil]
      exact spellsNumber_toChars n
  | hstring s =>
      show SpellsString (Token.toChars (.string s) ++ []) s
      rw [List.append_nil]
      exact spellsString_toChars s
  | harray vs ih =>
      refine ⟨_, ?_, elementsSpelledBy_spelling ih⟩
      rw [tokens_array]
      simp [spelling, Token.toChars]
  | hobject fields ih =>
      refine ⟨_, ?_, fieldsSpelledBy_spelling ih⟩
      rw [tokens_object]
      simp [spelling, Token.toChars]

end Value

end SourceMap.Json

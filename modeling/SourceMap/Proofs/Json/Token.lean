import Mathlib
import SourceMap.Json.Token
import SourceMap.Proofs.Json.Grammar

/-!
# Reading tokens

What the grammar of JSON allows for a token is read as this token (`Lexer.Reads`): a string
character by character, however each is spelled (`foldlM_spellsChars`), and a word up to the
character that ends it. Blanks between tokens change nothing. No two words are next to each other in
a text, so a word is only ever read behind a token that is none.
-/

set_option autoImplicit false

namespace SourceMap.Json

/-! ## Numerals -/

namespace Numeral

theorem splitDigits?_eq {ds : List Char} (h : IsDigits ds) : splitDigits? ds = some (ds, []) := by
  obtain ⟨hne, hdigits⟩ := h
  have htake : ds.takeWhile Char.isDigit = ds := List.takeWhile_eq_self_iff.mpr hdigits
  have hdrop : ds.dropWhile Char.isDigit = [] := List.dropWhile_eq_nil_iff.mpr hdigits
  unfold splitDigits?
  rw [htake, hdrop]
  cases ds with
  | nil => exact absurd rfl hne
  | cons d ds => rfl

theorem splitWhole?_eq {ds : List Char} (h : IsWhole ds) : splitWhole? ds = some (ds, []) := by
  obtain ⟨hdigits, hzero⟩ := h
  rw [splitWhole?, splitDigits?_eq hdigits, Option.bind_some]
  dsimp only
  split
  · -- only zero itself starts with a zero, and it has no other digit
    have hone := hzero rfl
    cases hone
  · rfl

/-- The numeral of a whole number. -/
def whole (negative : Bool) (ds : List Char) : Numeral where
  negative
  before := ds
  after := []
  exponent := none

/-- **The digits of a whole number are read as its numeral.** -/
theorem read?_whole (negative : Bool) {ds : List Char} (h : IsWhole ds) :
    read? (minus negative ++ ds) = some (whole negative ds, []) := by
  have hsign : splitSign (minus negative ++ ds) = (negative, ds) := by
    cases negative with
    | true => rfl
    | false =>
        show splitSign ds = _
        unfold splitSign
        split
        · -- a sign is no digit
          have hdigit := h.1.2 '-' List.mem_cons_self
          exact absurd hdigit (by decide)
        · rfl
  unfold read?
  rw [hsign]
  simp [splitWhole?_eq h, splitFraction?, splitExponent?, whole]

theorem number_whole (negative : Bool) (ds : List Char) :
    (whole negative ds).number = .whole (withSign negative (valueOf ds)) := by
  have hvalue : digitsValue ds = valueOf ds := rfl
  simp [whole, number, signed, withSign, hvalue]

/-- A numeral has no more significant characters than digits and signs. -/
theorem significantLength_le (n : Numeral) : n.significantLength ≤ n.significand.length := by
  have hle := (List.dropWhile_sublist (l := n.significand) (· == '0')).length_le
  unfold significantLength
  split
  · exact Nat.le_refl _
  · exact hle

/-- A whole number of 53 bits has at most sixteen digits. -/
theorem length_le_of_isWhole {ds : List Char} (h : IsWhole ds) (hlt : valueOf ds < 2 ^ 53) :
    ds.length ≤ 16 := by
  obtain ⟨⟨hne, hdigits⟩, hzero⟩ := h
  cases ds with
  | nil => exact absurd rfl hne
  | cons d ds =>
      by_cases hd : d = '0'
      · rw [hzero (by rw [hd]; rfl)]
        decide
      · -- the first digit is worth at least one
        have hdigit : 1 ≤ d.toNat - '0'.toNat := by
          have hbounds := hdigits d List.mem_cons_self
          have hne : d.toNat ≠ 48 := fun heq => hd (Char.toNat_inj.mp heq)
          simp only [Char.isDigit, Bool.and_eq_true, decide_eq_true_eq, UInt32.le_iff_toNat_le]
            at hbounds
          have hlow : 48 ≤ d.toNat := hbounds.1
          show 1 ≤ d.toNat - 48
          omega
        have hvalue : 10 ^ ds.length ≤ valueOf (d :: ds) := by
          rw [valueOf, Nat.ofDigitChars_cons, Nat.ofDigitChars_eq_ofDigitChars_zero, Nat.mul_zero,
            Nat.zero_add]
          exact Nat.le_add_right_of_le (Nat.le_mul_of_pos_right _ hdigit)
        by_contra hlength
        rw [List.length_cons] at hlength
        have hpow : 10 ^ 16 ≤ 10 ^ ds.length := Nat.pow_le_pow_right (by decide) (by omega)
        omega

theorem isLong_whole {negative : Bool} {ds : List Char} (h : ds.length ≤ 16) :
    (whole negative ds).isLong = false := by
  have hle := (whole negative ds).significantLength_le
  have hsignificand : (whole negative ds).significand.length ≤ ds.length + 1 := by
    cases negative <;> simp [whole, significand]
  rw [isLong, number_whole, decide_eq_false_iff_not]
  omega

theorem fits_whole {negative : Bool} {ds : List Char} (h : valueOf ds < 2 ^ 53) :
    (whole negative ds).fits = true := by
  simp only [fits, number_whole, withSign, Bool.and_eq_true, decide_eq_true_eq]
  cases negative <;> simp <;> omega

end Numeral

/-! ## Words -/

namespace Token

/-- Whether a token is spelled as a word. -/
def isWord : Token → Bool
  | .null | .bool _ | .number _ => true
  | _ => false

end Token

namespace Lexer

/-- Whether characters are those of a word that is read as a token, and may go on. -/
structure SpellsWord (cs : List Char) (t : Token) : Prop where
  isWord : t.isWord = true
  token : wordToken? cs = some (t, false)
  chars : ∀ c ∈ cs, isWordChar c = true

theorem spellsWord_null : SpellsWord ['n', 'u', 'l', 'l'] .null :=
  ⟨rfl, rfl, List.all_eq_true.mp rfl⟩

theorem spellsWord_true : SpellsWord ['t', 'r', 'u', 'e'] (.bool true) :=
  ⟨rfl, rfl, List.all_eq_true.mp rfl⟩

theorem spellsWord_false : SpellsWord ['f', 'a', 'l', 's', 'e'] (.bool false) :=
  ⟨rfl, rfl, List.all_eq_true.mp rfl⟩

/-- A whole number of 53 bits is read from its digits. -/
theorem spellsWord_whole (negative : Bool) {ds : List Char} (h : IsWhole ds)
    (hlt : valueOf ds < 2 ^ 53) :
    SpellsWord (minus negative ++ ds) (.number (.whole (withSign negative (valueOf ds)))) := by
  have hchars : ∀ c ∈ minus negative ++ ds, c = '-' ∨ c.isDigit = true := by
    intro c hc
    rcases List.mem_append.mp hc with hc | hc
    · cases negative with
      | true => exact Or.inl (List.mem_singleton.mp hc)
      | false => cases hc
    · exact Or.inr (h.1.2 c hc)
  -- a word with a letter in it is not made of digits
  have hne {w : List Char} {l : Char} (hl : l ∈ w) (hsign : l ≠ '-') (hletter : l.isDigit = false) :
      minus negative ++ ds ≠ w := by
    rintro rfl
    rcases hchars l hl with rfl | hdigit
    · exact hsign rfl
    · rw [hdigit] at hletter
      cases hletter
  refine ⟨rfl, ?_, ?_⟩
  · rw [wordToken?, if_neg (hne (l := 'n') (by decide) (by decide) (by decide)),
      if_neg (hne (l := 't') (by decide) (by decide) (by decide)),
      if_neg (hne (l := 'f') (by decide) (by decide) (by decide)), Numeral.read?_whole negative h]
    simp [Numeral.fits_whole hlt, Numeral.isLong_whole (Numeral.length_le_of_isWhole h hlt),
      Numeral.number_whole]
  · intro c hc
    rcases hchars c hc with rfl | hdigit
    · decide
    · simp [isWordChar, Char.isAlphanum, hdigit]

/-! ## Rows of tokens -/

/-- Whether a reader has read a row of tokens. The last of them may be a word that could go on. -/
inductive Holds : Lexer → List Token → Prop
  | settled (ts : List Token) : Holds { tokens := ts.reverse } ts
  | word (ts : List Token) (t : Token) (letters : List Char) : t.isWord = true →
      wordToken? letters.reverse = some (t, false) →
      Holds { mode := .word letters, tokens := ts.reverse } (ts ++ [t])

/-- A word ends before a character of another kind. -/
theorem Holds.step {l : Lexer} {ts : List Token} (h : l.Holds ts) {c : Char}
    (hword : isWordChar c = false) (hnul : c ≠ '\x00') :
    l.step c = start { tokens := ts.reverse } c := by
  cases h with
  | settled => rfl
  | word ts t letters _ hletters =>
      rw [Lexer.step]
      dsimp only
      rw [if_neg (by simp [hword]), endWord, hletters, Option.bind_some]
      simp [hnul, emit]

/-- A document may end after any token. -/
theorem Holds.finish? {l : Lexer} {ts : List Token} (h : l.Holds ts) : l.finish? = some ts := by
  cases h with
  | settled => simp [Lexer.finish?]
  | word ts t letters _ hletters =>
      simp [Lexer.finish?, endWord, hletters, start, isBlank, emit]

/-- Whether characters are read as a row of tokens, behind any that do not end with a word. -/
def Reads (cs : List Char) (ts : List Token) : Prop :=
  ∀ (l : Lexer) (before : List Token), l.Holds before → (∀ t ∈ before.getLast?, t.isWord = false) →
    ∃ l', cs.foldlM step l = some l' ∧ l'.Holds (before ++ ts)

theorem reads_nil : Reads [] [] := by
  intro l before h _
  exact ⟨l, rfl, by rwa [List.append_nil]⟩

/-- **A mark may stand between any two rows of tokens.** -/
theorem Reads.mark {cs ds : List Char} {ts us : List Token} (hcs : Reads cs ts) (hds : Reads ds us)
    {c : Char} {t : Token} (hword : isWordChar c = false) (hnul : c ≠ '\x00')
    (hstart : ∀ l : Lexer, l.start c = some (l.emit t)) (ht : t.isWord = false) :
    Reads (cs ++ c :: ds) (ts ++ t :: us) := by
  intro l before h hlast
  obtain ⟨l₁, hread₁, h₁⟩ := hcs l before h hlast
  have hsettled := Holds.settled (before ++ ts ++ [t])
  rw [List.reverse_append] at hsettled
  obtain ⟨l₂, hread₂, h₂⟩ := hds _ _ hsettled (by simp [ht])
  refine ⟨l₂, ?_, by simpa using h₂⟩
  rw [List.foldlM_append, hread₁]
  show (c :: ds).foldlM Lexer.step l₁ = _
  rw [List.foldlM_cons, h₁.step hword hnul, hstart]
  exact hread₂

/-- A blank changes nothing. -/
theorem Holds.blank {l : Lexer} {ts : List Token} (h : l.Holds ts) {c : Char}
    (hc : c ∈ [' ', '\t', '\n', '\r']) : ∃ l', l.step c = some l' ∧ l'.Holds ts := by
  have hkind : isBlank c = true ∧ isWordChar c = false ∧ c ≠ '\x00' := by
    simp only [List.mem_cons, List.not_mem_nil, or_false] at hc
    rcases hc with rfl | rfl | rfl | rfl <;> decide
  obtain ⟨hblank, hword, hnul⟩ := hkind
  refine ⟨_, ?_, .settled ts⟩
  rw [h.step hword hnul, start, if_pos hblank]

theorem Holds.blanks {cs : List Char} (hcs : Blank cs) : ∀ {l : Lexer} {ts : List Token},
    l.Holds ts → ∃ l', cs.foldlM Lexer.step l = some l' ∧ l'.Holds ts := by
  induction cs with
  | nil => exact fun {l} _ h => ⟨l, rfl, h⟩
  | cons c cs ih =>
      intro l ts h
      obtain ⟨l₁, hstep, h₁⟩ := h.blank (hcs c List.mem_cons_self)
      obtain ⟨l₂, hread, h₂⟩ := ih (fun d hd => hcs d (List.mem_cons_of_mem c hd)) h₁
      refine ⟨l₂, ?_, h₂⟩
      rw [List.foldlM_cons, hstep]
      exact hread

theorem reads_blank {cs : List Char} (h : Blank cs) : Reads cs [] := by
  intro l before hl _
  rw [List.append_nil]
  exact hl.blanks h

/-- **Blanks around tokens change nothing.** -/
theorem Reads.padded {p : List Char → Prop} {cs : List Char} {ts : List Token}
    (h : ∀ text, p text → Reads text ts) (hcs : Padded p cs) : Reads cs ts := by
  obtain ⟨before, text, after, rfl, hbefore, htext, hafter⟩ := hcs
  intro l row hl hlast
  obtain ⟨l₁, hread₁, h₁⟩ := hl.blanks hbefore
  obtain ⟨l₂, hread₂, h₂⟩ := h text htext l₁ row h₁ hlast
  obtain ⟨l₃, hread₃, h₃⟩ := h₂.blanks hafter
  refine ⟨l₃, ?_, h₃⟩
  rw [List.append_assoc, List.foldlM_append, hread₁]
  show (text ++ after).foldlM Lexer.step l₁ = _
  rw [List.foldlM_append, hread₂]
  exact hread₃

/-! ## Words in a row -/

/-- A character of a word starts one. -/
theorem start_of_isWordChar {c : Char} (h : isWordChar c = true) (l : Lexer) :
    l.start c = some { l with mode := .word [c] } := by
  have hne {d : Char} (hd : isWordChar d = false) : c ≠ d := by
    rintro rfl
    rw [h] at hd
    cases hd
  have hblank : isBlank c = false := by
    simp [isBlank, hne (d := ' ') (by decide), hne (d := '\t') (by decide),
      hne (d := '\n') (by decide), hne (d := '\r') (by decide)]
  simp [start, hblank, h, hne (d := '[') (by decide), hne (d := ']') (by decide),
    hne (d := '\x7b') (by decide), hne (d := '\x7d') (by decide), hne (d := ':') (by decide),
    hne (d := ',') (by decide), hne (d := '"') (by decide)]

/-- A word goes on over its characters. -/
theorem foldlM_word {cs : List Char} (h : ∀ c ∈ cs, isWordChar c = true) (tokens : List Token) :
    ∀ letters : List Char, cs.foldlM step { mode := .word letters, tokens } =
      some { mode := .word (cs.reverse ++ letters), tokens } := by
  induction cs with
  | nil => exact fun letters => rfl
  | cons c cs ih =>
      intro letters
      have hstep : step { mode := .word letters, tokens } c =
          some { mode := .word (c :: letters), tokens } := by
        simp [step, h c List.mem_cons_self]
      rw [List.foldlM_cons, hstep]
      show cs.foldlM step _ = _
      rw [ih (fun d hd => h d (List.mem_cons_of_mem c hd)), List.reverse_cons, List.append_assoc]
      rfl

/-- **A word is read behind a token that is none.** -/
theorem reads_word {cs : List Char} {t : Token} (h : SpellsWord cs t) : Reads cs [t] := by
  intro l before hl hlast
  obtain ⟨hword, htoken, hchars⟩ := h
  cases hl with
  | word ts t' letters hword' _ =>
      -- the word before would have to go on
      have hfalse := hlast t' (by simp)
      rw [hword'] at hfalse
      cases hfalse
  | settled =>
      cases cs with
      | nil => exact absurd htoken (by simp [show wordToken? [] = none by decide])
      | cons c cs =>
          refine ⟨_, ?_, .word before t (c :: cs).reverse hword ?_⟩
          · have hstep : Lexer.step { tokens := before.reverse } c =
                some { mode := .word [c], tokens := before.reverse } :=
              start_of_isWordChar (hchars c List.mem_cons_self) _
            rw [List.foldlM_cons, hstep, List.reverse_cons]
            exact foldlM_word (fun d hd => hchars d (List.mem_cons_of_mem c hd)) _ _
          · rw [List.reverse_reverse]
            exact htoken

/-! ## Strings -/

theorem hexValue?_of_isHex {c : Char} {d : Nat} (h : IsHex c d) : hexValue? c = some d := by
  have hsmall : ∀ d < 16, ("0123456789abcdef".toList[d]?).bind hexValue? = some d := by
    decide +kernel
  have hcapital : ∀ d < 16, ("0123456789ABCDEF".toList[d]?).bind hexValue? = some d := by
    decide +kernel
  rcases h with h | h
  · have hread := hsmall d (List.getElem?_eq_some_iff.mp h).1
    rwa [h] at hread
  · have hread := hcapital d (List.getElem?_eq_some_iff.mp h).1
    rwa [h] at hread

/-- The four digits of a unit are read one after the other. -/
theorem foldlM_spellsUnit {cs : List Char} {u : Nat} (h : SpellsUnit cs u) (p : Partial)
    (tokens : List Token) : ('u' :: cs).foldlM step { mode := .escape p, tokens } =
      (p.pushUnit? u).map fun p => { mode := .inString p, tokens } := by
  cases h with
  | digits ha hb hc hd =>
      simp [List.foldlM, step, hexValue?_of_isHex ha, hexValue?_of_isHex hb,
        hexValue?_of_isHex hc, hexValue?_of_isHex hd]

/-- A pair of units stands for the character that the units make up. -/
theorem pairedChar_eq {high low : Nat} (hlow : 0xDC00 ≤ low) (hlow' : low < 0xE000) :
    Partial.pairedChar high low =
      Char.ofNat (0x10000 + (high - 0xD800) * 0x400 + (low - 0xDC00)) := by
  have hor : (high - 0xD800) * 2 ^ 10 ||| (low - 0xDC00) =
      (high - 0xD800) * 2 ^ 10 + (low - 0xDC00) := by
    rw [Nat.mul_comm]
    exact (Nat.two_pow_add_eq_or_of_lt (by omega) _).symm
  have hpow : (2 ^ 10 : Nat) = 0x400 := rfl
  rw [Partial.pairedChar, ← hpow, hor, Nat.add_assoc]

/-- **A character inside a string is read from whatever stands for it.** -/
theorem foldlM_spellsChar {text : List Char} {c : Char} (h : SpellsChar text c) (chars : List Char)
    (tokens : List Token) : text.foldlM step { mode := .inString { chars }, tokens } =
      some { mode := .inString { chars := c :: chars }, tokens } := by
  have hbackslash (p : Partial) : step { mode := .inString p, tokens } '\\' =
      some { mode := .escape p, tokens } := rfl
  cases h with
  | self hquote hslash hcontrol =>
      simp [List.foldlM, step, hquote, hslash, Nat.not_lt.mpr hcontrol, Partial.push,
        Partial.settled]
  | short hmem =>
      simp only [shortEscapes, List.mem_cons, Prod.mk.injEq, List.not_mem_nil, or_false] at hmem
      rcases hmem with ⟨rfl, rfl⟩ | ⟨rfl, rfl⟩ | ⟨rfl, rfl⟩ | ⟨rfl, rfl⟩ | ⟨rfl, rfl⟩ |
        ⟨rfl, rfl⟩ | ⟨rfl, rfl⟩ | ⟨rfl, rfl⟩ <;> rfl
  | unit hunit hrange =>
      rw [List.foldlM_cons, hbackslash]
      show List.foldlM step _ _ = _
      rw [foldlM_spellsUnit hunit, Partial.pushUnit?]
      dsimp only
      rw [if_pos hrange]
      rfl
  | @pair cs ds high low hhigh hlow hlow₁ hhigh₁ hlow₂ hhigh₂ =>
      rw [List.cons_append, List.foldlM_cons, hbackslash, Option.bind_eq_bind, Option.bind_some,
        List.foldlM_append, foldlM_spellsUnit hhigh, Partial.pushUnit?]
      dsimp only
      rw [if_neg (by omega), if_pos hhigh₁, Option.map_some]
      show List.foldlM step _ _ = _
      rw [List.foldlM_cons, hbackslash]
      show List.foldlM step _ _ = _
      rw [foldlM_spellsUnit hlow, Partial.pushUnit?]
      dsimp only
      rw [if_neg (by omega), pairedChar_eq hlow₂ hhigh₂]
      rfl

theorem foldlM_spellsChars {text cs : List Char} (h : SpellsChars text cs) (tokens : List Token) :
    ∀ chars : List Char, text.foldlM step { mode := .inString { chars }, tokens } =
      some { mode := .inString { chars := cs.reverse ++ chars }, tokens } := by
  induction h with
  | nil => exact fun _ => rfl
  | @cons text rest cs c hchar _ ih =>
      intro chars
      rw [List.foldlM_append, foldlM_spellsChar hchar]
      show List.foldlM step _ _ = _
      rw [ih, List.reverse_cons, List.append_assoc]
      rfl

/-- **A string is read from whatever stands for its characters.** -/
theorem reads_string {cs : List Char} {s : String} (h : SpellsString cs s) :
    Reads cs [.string s] := by
  obtain ⟨inner, rfl, hinner⟩ := h
  intro l before hl _
  have hsettled := Holds.settled (before ++ [.string s])
  rw [List.reverse_append] at hsettled
  refine ⟨_, ?_, hsettled⟩
  have hquote := hl.step (c := '"') (by decide) (by decide)
  have hstart : start { tokens := before.reverse } '"' =
      some { mode := .inString {}, tokens := before.reverse } := rfl
  rw [List.foldlM_cons, hquote, hstart]
  show List.foldlM Lexer.step _ _ = _
  rw [List.foldlM_append, foldlM_spellsChars hinner]
  simp [step, emit, Partial.finish, Partial.settled]

end Lexer

end SourceMap.Json

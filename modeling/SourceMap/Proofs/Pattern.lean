import Mathlib

/-!
# Patterns

A pattern is matched with a text from its start. Where there are several ways to match, they are
tried in the order of preference: more characters before fewer, an optional part before none. The
first way counts on which all that comes after it matches too.

Whatever is matched is a text of the pattern (`exists_matches_of_run`). Which way counts is told for
runs of characters: the longest, where it succeeds (`tryMany_of_longest`), and where what comes
after the run cannot start with a character of its class, as there is no other (`tryMany_of_stops`).
-/

set_option autoImplicit false

namespace SourceMap.Text

/-- A pattern. -/
inductive Pattern where
  /-- One character of a class. -/
  | char (p : Char → Bool)
  /-- Any number of characters of a class. -/
  | many (p : Char → Bool)
  | seq (a b : Pattern)
  /-- A part that may be absent. -/
  | maybe (a : Pattern)
  /-- A part whose text is kept under a number. -/
  | group (number : Nat) (a : Pattern)

namespace Pattern

instance : Append Pattern := ⟨seq⟩

/-- A given character. -/
def lit (c : Char) : Pattern :=
  .char (· == c)

/-- At least one character of a class. -/
def several (p : Char → Bool) : Pattern :=
  .char p ++ .many p

/-! ## Matching -/

/-- The texts of groups with their numbers, the last one first. -/
abbrev Captures :=
  List (Nat × List Char)

/-- What comes after a part of a pattern: it is given the rest of the text and the groups so far. -/
abbrev Next :=
  List Char → Captures → Option Captures

/-- Passes as many characters of a class as possible, but fewer if the rest fails otherwise. -/
def tryMany {α : Type} (p : Char → Bool) (next : List Char → Option α) : List Char → Option α
  | [] => next []
  | c :: cs => if p c then (tryMany p next cs).or (next (c :: cs)) else next (c :: cs)

/-- Matches a pattern with the start of a text, and `next` with the rest. -/
def run : Pattern → Next → Next
  | .char _, _, [], _ => none
  | .char p, next, c :: cs, found => if p c then next cs found else none
  | .many p, next, cs, found => tryMany p (next · found) cs
  | .seq a b, next, cs, found => a.run (b.run next) cs found
  | .maybe a, next, cs, found => (a.run next cs found).or (next cs found)
  | .group number a, next, cs, found =>
    a.run (fun rest found => next rest ((number, cs.take (cs.length - rest.length)) :: found))
      cs found

/-- The end of a text, and nothing but it. -/
def atEnd : Next := fun rest found =>
  if rest.isEmpty then some found else none

/-- The groups of a pattern that matches a whole text. -/
def captures? (a : Pattern) (cs : List Char) : Option Captures :=
  a.run atEnd cs []

variable {a b : Pattern} {p : Char → Bool} {next : Next} {cs : List Char} {found : Captures}

theorem run_append : (a ++ b).run next = a.run (b.run next) := rfl

theorem run_lit_cons (c : Char) : (lit c).run next (c :: cs) found = next cs found := by
  simp [lit, run]

/-- A character fails where another one comes. -/
theorem run_lit_of_head? {c : Char} (h : cs.head? ≠ some c) : (lit c).run next cs found = none := by
  cases cs with
  | nil => rfl
  | cons d cs =>
      have hd : d ≠ c := fun heq => h (congrArg some heq)
      simp [lit, run, hd]

/-! ## The texts of a pattern -/

/-- Whether a text is one of those that a pattern describes. -/
inductive Matches : Pattern → List Char → Prop
  | char {p : Char → Bool} {c : Char} : p c = true → Matches (.char p) [c]
  | many {p : Char → Bool} {cs : List Char} : (∀ c ∈ cs, p c = true) → Matches (.many p) cs
  | seq {a b : Pattern} {cs ds : List Char} : Matches a cs → Matches b ds →
      Matches (.seq a b) (cs ++ ds)
  | absent {a : Pattern} : Matches (.maybe a) []
  | present {a : Pattern} {cs : List Char} : Matches a cs → Matches (.maybe a) cs
  | group {number : Nat} {a : Pattern} {cs : List Char} : Matches a cs →
      Matches (.group number a) cs

theorem matches_append_iff :
    (a ++ b).Matches cs ↔ ∃ as bs, a.Matches as ∧ b.Matches bs ∧ cs = as ++ bs := by
  constructor
  · rintro ⟨⟩
    exact ⟨_, _, ‹_›, ‹_›, rfl⟩
  · rintro ⟨as, bs, has, hbs, rfl⟩
    exact .seq has hbs

theorem matches_group_iff {number : Nat} : (group number a).Matches cs ↔ a.Matches cs := by
  constructor
  · rintro ⟨⟩
    assumption
  · exact .group

theorem matches_maybe_iff : (maybe a).Matches cs ↔ cs = [] ∨ a.Matches cs := by
  constructor
  · rintro ⟨⟩
    · exact Or.inl rfl
    · exact Or.inr ‹_›
  · rintro (rfl | h)
    · exact .absent
    · exact .present h

theorem matches_many_iff : (many p).Matches cs ↔ ∀ c ∈ cs, p c = true := by
  constructor
  · rintro ⟨⟩
    assumption
  · exact .many

theorem matches_lit_iff {c : Char} : (lit c).Matches cs ↔ cs = [c] := by
  constructor
  · rintro ⟨⟩
    simp_all
  · rintro rfl
    exact .char (beq_self_eq_true c)

/-- Whether a text is made of characters of a class, and of one at least. -/
def IsRun (p : Char → Bool) (cs : List Char) : Prop :=
  cs ≠ [] ∧ ∀ c ∈ cs, p c = true

theorem isRun_takeWhile (h : cs.takeWhile p ≠ []) : IsRun p (cs.takeWhile p) :=
  ⟨h, fun _ hc => List.mem_takeWhile_imp hc⟩

theorem matches_several_iff : (several p).Matches cs ↔ IsRun p cs := by
  rw [several, matches_append_iff, IsRun]
  constructor
  · rintro ⟨as, bs, ⟨hc⟩, hbs, rfl⟩
    rw [matches_many_iff] at hbs
    simpa [hc] using hbs
  · rintro ⟨hne, hall⟩
    cases cs with
    | nil => exact absurd rfl hne
    | cons c cs =>
        rw [List.forall_mem_cons] at hall
        exact ⟨[c], cs, .char hall.1, .many hall.2, rfl⟩

theorem exists_of_tryMany {α : Type} {next : List Char → Option α} {x : α}
    (h : tryMany p next cs = some x) :
    ∃ as rest, cs = as ++ rest ∧ (∀ c ∈ as, p c = true) ∧ next rest = some x := by
  have hnone : next cs = some x → ∃ as rest, cs = as ++ rest ∧ (∀ c ∈ as, p c = true) ∧
      next rest = some x := fun hnext => ⟨[], cs, rfl, by simp, hnext⟩
  induction cs with
  | nil => exact hnone h
  | cons c cs ih =>
      rw [tryMany] at h
      split at h
      · rename_i hc
        rcases Option.or_eq_some_iff.mp h with hmore | ⟨-, hnext⟩
        · obtain ⟨as, rest, rfl, has, hrest⟩ :=
            ih hmore fun hnext => ⟨[], cs, rfl, by simp, hnext⟩
          exact ⟨c :: as, rest, rfl, List.forall_mem_cons.mpr ⟨hc, has⟩, hrest⟩
        · exact hnone hnext
      · exact hnone h

/-- **What is matched is a text of the pattern.** -/
theorem exists_matches_of_run {x : Captures} (h : a.run next cs found = some x) :
    ∃ as rest found', cs = as ++ rest ∧ a.Matches as ∧ next rest found' = some x := by
  induction a generalizing next cs found with
  | char p =>
      cases cs with
      | nil => cases h
      | cons c cs =>
          rw [run] at h
          split at h
          · rename_i hc
            exact ⟨[c], cs, found, rfl, .char hc, h⟩
          · cases h
  | many p =>
      obtain ⟨as, rest, rfl, has, hrest⟩ := exists_of_tryMany h
      exact ⟨as, rest, found, rfl, .many has, hrest⟩
  | seq a b iha ihb =>
      obtain ⟨as, more, found₁, rfl, has, hmore⟩ := iha h
      obtain ⟨bs, rest, found₂, rfl, hbs, hrest⟩ := ihb hmore
      exact ⟨as ++ bs, rest, found₂, by simp, .seq has hbs, hrest⟩
  | maybe a ih =>
      rcases Option.or_eq_some_iff.mp h with hpresent | ⟨-, habsent⟩
      · obtain ⟨as, rest, found', rfl, has, hrest⟩ := ih hpresent
        exact ⟨as, rest, found', rfl, .present has, hrest⟩
      · exact ⟨[], cs, found, rfl, .absent, habsent⟩
  | group number a ih =>
      obtain ⟨as, rest, found', rfl, has, hrest⟩ := ih h
      exact ⟨as, rest, _, rfl, .group has, hrest⟩

/-- A text that is matched as a whole is a text of the pattern. -/
theorem matches_of_captures? {x : Captures} (h : a.captures? cs = some x) : a.Matches cs := by
  obtain ⟨as, rest, found, rfl, has, hrest⟩ := exists_matches_of_run h
  have hnil : rest = [] := by
    by_contra hne
    simp [atEnd, hne] at hrest
  rwa [hnil, List.append_nil]

/-- Whether no class of a pattern has a character. -/
def avoids (x : Char) : Pattern → Bool
  | .char p => !p x
  | .many p => !p x
  | .seq a b => a.avoids x && b.avoids x
  | .maybe a => a.avoids x
  | .group _ a => a.avoids x

/-- A character that is in no class is in no text of the pattern. -/
theorem Matches.not_mem {x : Char} (h : a.Matches cs) (ha : a.avoids x = true) : x ∉ cs := by
  have hne {p : Char → Bool} (hp : (!p x) = true) {c : Char} (hc : p c = true) : x ≠ c := by
    rintro rfl
    simp [hc] at hp
  induction h with
  | char hc => simpa using hne ha hc
  | many hall => exact fun hmem => hne ha (hall x hmem) rfl
  | seq _ _ iha ihb =>
      simp only [avoids, Bool.and_eq_true] at ha
      simp [iha ha.1, ihb ha.2]
  | absent => exact List.not_mem_nil
  | present _ ih => exact ih ha
  | group _ ih => exact ih ha

/-! ## Runs of characters -/

/-- Where the longest way to pass characters succeeds, it counts. -/
theorem tryMany_of_longest {α : Type} {next : List Char → Option α} {x : α}
    (h : next (cs.dropWhile p) = some x) : tryMany p next cs = some x := by
  induction cs with
  | nil => exact h
  | cons c cs ih =>
      by_cases hc : p c = true
      · rw [List.dropWhile_cons_of_pos hc] at h
        rw [tryMany, if_pos hc, ih h, Option.some_or]
      · rw [List.dropWhile_cons_of_neg hc] at h
        rw [tryMany, if_neg hc, h]

/-- Where the rest cannot start with a character of the class, the longest way is the only one. -/
theorem tryMany_of_stops {α : Type} {next : List Char → Option α}
    (h : ∀ c rest, p c = true → next (c :: rest) = none) :
    tryMany p next cs = next (cs.dropWhile p) := by
  induction cs with
  | nil => rfl
  | cons c cs ih =>
      by_cases hc : p c = true
      · rw [tryMany, if_pos hc, ih, h c cs hc, Option.or_none, List.dropWhile_cons_of_pos hc]
      · rw [tryMany, if_neg hc, List.dropWhile_cons_of_neg hc]

/-- A run of characters of a class ends at the first one that is not of it. -/
theorem takeWhile_append_cons {p : Char → Bool} {as : List Char} {c : Char}
    (has : ∀ a ∈ as, p a = true) (hc : p c = false) (rest : List Char) :
    (as ++ c :: rest).takeWhile p = as ∧ (as ++ c :: rest).dropWhile p = c :: rest := by
  have hneg : ¬ p c = true := by simp [hc]
  rw [List.takeWhile_append_of_pos has, List.dropWhile_append_of_pos has,
    List.takeWhile_cons_of_neg hneg, List.dropWhile_cons_of_neg hneg, List.append_nil]
  exact ⟨rfl, rfl⟩

theorem exists_cons_of_takeWhile (h : cs.takeWhile p ≠ []) :
    ∃ c rest, cs = c :: rest ∧ p c = true := by
  cases cs with
  | nil => exact absurd rfl h
  | cons c rest =>
      refine ⟨c, rest, rfl, ?_⟩
      by_contra hc
      exact h (List.takeWhile_cons_of_neg hc)

theorem run_several_cons {c : Char} (hc : p c = true) :
    (several p).run next (c :: cs) found = tryMany p (next · found) cs := by
  simp [several, run_append, run, hc]

/-- At least one character is needed. -/
theorem run_several_of_takeWhile_nil (h : cs.takeWhile p = []) :
    (several p).run next cs found = none := by
  cases cs with
  | nil => rfl
  | cons c cs =>
      have hc : ¬ p c = true := by
        intro hc
        simp [hc] at h
      simp [several, run_append, run, hc]

theorem run_several_of_longest {x : Captures} (hne : cs.takeWhile p ≠ [])
    (h : next (cs.dropWhile p) found = some x) : (several p).run next cs found = some x := by
  obtain ⟨c, rest, rfl, hc⟩ := exists_cons_of_takeWhile hne
  rw [List.dropWhile_cons_of_pos hc] at h
  rw [run_several_cons hc]
  exact tryMany_of_longest h

theorem run_several_of_stops (hne : cs.takeWhile p ≠ [])
    (h : ∀ c rest, p c = true → next (c :: rest) found = none) :
    (several p).run next cs found = next (cs.dropWhile p) found := by
  obtain ⟨c, rest, rfl, hc⟩ := exists_cons_of_takeWhile hne
  rw [run_several_cons hc, List.dropWhile_cons_of_pos hc]
  exact tryMany_of_stops h

/-- A run ends at the first character that is not of the class. -/
theorem run_several_append {as rest : List Char} {c : Char} (has : IsRun p as) (hc : p c = false)
    (h : ∀ d more, p d = true → next (d :: more) found = none) :
    (several p).run next (as ++ c :: rest) found = next (c :: rest) found := by
  obtain ⟨htake, hdrop⟩ := takeWhile_append_cons has.2 hc rest
  rw [run_several_of_stops (by rw [htake]; exact has.1) h, hdrop]

/-- A character that is not of a class fails where one of the class comes. -/
theorem run_lit_of_class {c d : Char} (hc : p c = false) (hd : p d = true) (rest : List Char) :
    (lit c).run next (d :: rest) found = none := by
  refine run_lit_of_head? ?_
  rintro ⟨⟩
  rw [hc] at hd
  cases hd

/-! ## Groups -/

/-- What is before the rest of a text. -/
theorem take_length_sub (as rest : List Char) :
    (as ++ rest).take ((as ++ rest).length - rest.length) = as := by
  have hlength : (as ++ rest).length - rest.length = as.length := by
    rw [List.length_append]
    omega
  rw [hlength, List.take_left]

/-- The text of a group that passes characters of a class. -/
theorem take_length_sub_dropWhile (p : Char → Bool) (cs : List Char) :
    cs.take (cs.length - (cs.dropWhile p).length) = cs.takeWhile p := by
  have h := take_length_sub (cs.takeWhile p) (cs.dropWhile p)
  rwa [List.takeWhile_append_dropWhile] at h

end Pattern

end SourceMap.Text

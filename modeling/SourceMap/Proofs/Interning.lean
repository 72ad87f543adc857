import Mathlib
import SourceMap.Proofs.StringTable

/-!
# Runs of additions

What a table holds after a run of additions is told by the run alone: a string takes a slot where it
is new, and where it is a repetition that is to be kept (`kept`). Each addition tells the first slot
of its string, which no later one moves (`interns_addAll`).

A machine has the row and the index side by side, with words of 32 bits in the index (`WordTable`).
Nothing about them alone says that they agree. Every addition keeps them in step while the next slot
has a number of 32 bits (`WordTable.Mirrors.add`).
-/

set_option autoImplicit false

namespace SourceMap

/-- A string to be added, and whether it takes one more slot if it is there already. -/
structure Addition where
  string : String
  keep : Bool

namespace StringTable

/-! ## What takes a slot -/

/-- The table after some additions. -/
def addAll (t : StringTable) (as : List Addition) : StringTable :=
  as.foldl (fun t a => (t.add a.string a.keep).2) t

/-- The strings that take a slot, in order, where the strings `seen` have been added before: those
that are new, and the repetitions to be kept. -/
def kept (seen : List String) : List Addition → List String
  | [] => []
  | a :: as =>
    (if a.string ∈ seen ∧ a.keep = false then [] else [a.string]) ++ kept (a.string :: seen) as

theorem addAll_cons (t : StringTable) (a : Addition) (as : List Addition) :
    t.addAll (a :: as) = (t.add a.string a.keep).2.addAll as := rfl

theorem addAll_append (t : StringTable) (as bs : List Addition) :
    t.addAll (as ++ bs) = (t.addAll as).addAll bs := List.foldl_append

/-- **The row is what takes a slot.** -/
theorem toList_addAll {as : List Addition} :
    ∀ {t : StringTable} {seen : List String}, (∀ s, s ∈ t.toList ↔ s ∈ seen) →
      (t.addAll as).toList = t.toList ++ kept seen as := by
  induction as with
  | nil => exact fun _ => (List.append_nil _).symm
  | cons a as ih =>
      intro t seen h
      have hseen : ∀ s, s ∈ (t.add a.string a.keep).2.toList ↔ s ∈ a.string :: seen := by
        intro s
        rw [mem_add, h, List.mem_cons]
      rw [addAll_cons, ih hseen, toList_add, kept]
      by_cases hrep : a.string ∈ t.toList ∧ a.keep = false
      · rw [if_pos hrep, if_pos ⟨(h _).mp hrep.1, hrep.2⟩, List.nil_append]
      · rw [if_neg hrep, if_neg fun hr => hrep ⟨(h _).mpr hr.1, hr.2⟩, List.append_assoc]

/-- A run of additions moves no slot. -/
theorem prefix_addAll {as : List Addition} :
    ∀ {t : StringTable}, t.toList <+: (t.addAll as).toList := by
  induction as with
  | nil => exact List.prefix_rfl
  | cons a as ih =>
      intro t
      exact (prefix_add t a.string a.keep).trans ih

/-! ## First slots -/

theorem contains_eq_true_iff {t : StringTable} {s : String} :
    t.contains s = true ↔ s ∈ t.toList := by
  rw [contains, Option.isSome_iff_ne_none, ne_eq, indexOf?_eq_none_iff, not_not]

/-- The first slot of a string stays the first while a table grows. -/
theorem indexOf?_of_prefix {t t' : StringTable} (h : t.toList <+: t'.toList) {s : String} {i : Nat}
    (hi : t.indexOf? s = some i) : t'.indexOf? s = some i := by
  obtain ⟨hget, hbefore⟩ := indexOf?_eq_some_iff.mp hi
  have hlt := lt_size_of_get? hget
  have hsame : ∀ j < t.size, t'.get? j = t.get? j := fun j hj => get?_of_prefix h hj
  refine indexOf?_eq_some_iff.mpr ⟨(hsame i hlt).trans hget, fun j hj => ?_⟩
  rw [hsame j (Nat.lt_trans hj hlt)]
  exact hbefore j hj

/-- Adding a string leaves all others where they resolve to. -/
theorem indexOf?_add {t : StringTable} {r s : String} {keep : Bool} :
    (t.add s keep).2.indexOf? r = if r = s then some (t.add s keep).1 else t.indexOf? r := by
  split_ifs with h
  · rw [h]
    exact indexOf?_add_self t s keep
  · cases hr : t.indexOf? r with
    | some i => exact indexOf?_of_prefix (prefix_add t s keep) hr
    | none =>
        refine indexOf?_eq_none_iff.mpr fun hmem => ?_
        obtain heq | hmem := mem_add.mp hmem
        · exact h heq
        · exact indexOf?_eq_none_iff.mp hr hmem

/-- Adding tells the slot that the string has, and the next one where it has none. -/
theorem fst_add (t : StringTable) (s : String) (keep : Bool) :
    (t.add s keep).1 = (t.indexOf? s).getD t.size := by
  unfold add
  split
  · next i hs => exact (congrArg (Option.getD · t.size) hs).symm
  · next hs => exact (congrArg (Option.getD · t.size) hs).symm

end StringTable

/-! ## In words -/

/-- A row of strings beside an index of words. -/
structure WordTable where
  slots : Array String
  first : Std.HashMap String UInt32

namespace WordTable

def empty : WordTable where
  slots := #[]
  first := ∅

/-- The word that the index has for a string. -/
def indexOf? (w : WordTable) (s : String) : Option UInt32 :=
  w.first[s]?

/-- Whether the index has a word for a string. -/
def contains (w : WordTable) (s : String) : Bool :=
  w.first.contains s

/-- The string in the slot that a word numbers. -/
def get? (w : WordTable) (i : UInt32) : Option String :=
  w.slots[i.toNat]?

/-- Adds a string and tells the word that the index has for it. The word of a new slot is the low
bits of its number. -/
def add (w : WordTable) (s : String) (keep : Bool) : UInt32 × WordTable :=
  match w.indexOf? s with
  | some i => (i, if keep then { w with slots := w.slots.push s } else w)
  | none =>
    let i := UInt32.ofNat w.slots.size
    (i, { slots := w.slots.push s, first := w.first.insert s i })

/-- The row and the index after some additions. -/
def addAll (w : WordTable) (as : List Addition) : WordTable :=
  as.foldl (fun w a => (w.add a.string a.keep).2) w

/-- Whether a row and an index in words are those of a table. -/
structure Mirrors (w : WordTable) (t : StringTable) : Prop where
  slots : w.slots.toList = t.toList
  first : ∀ s : String, (w.indexOf? s).map UInt32.toNat = t.indexOf? s

section

variable {w : WordTable} {t : StringTable} {s : String}

theorem mirrors_empty : empty.Mirrors StringTable.empty where
  slots := rfl
  first s := by
    have hnone : StringTable.empty.indexOf? s = none :=
      StringTable.indexOf?_eq_none_iff.mpr List.not_mem_nil
    rw [hnone, indexOf?, empty, Std.HashMap.getElem?_empty, Option.map_none]

theorem add_of_some {i : UInt32} {keep : Bool} (h : w.indexOf? s = some i) :
    w.add s keep = (i, if keep then { w with slots := w.slots.push s } else w) := by
  rw [add, h]

theorem add_of_none {keep : Bool} (h : w.indexOf? s = none) :
    w.add s keep = (UInt32.ofNat w.slots.size,
      { slots := w.slots.push s, first := w.first.insert s (UInt32.ofNat w.slots.size) }) := by
  rw [add, h]

theorem Mirrors.contains (h : w.Mirrors t) : w.contains s = t.contains s := by
  rw [StringTable.contains, ← h.first, Option.isSome_map, WordTable.contains,
    Std.HashMap.contains_eq_isSome_getElem?]
  rfl

theorem Mirrors.get? (h : w.Mirrors t) {i : UInt32} : w.get? i = t.get? i.toNat := by
  rw [StringTable.get?_eq, ← h.slots, WordTable.get?, Array.getElem?_toList]

/-- **An addition keeps a row and an index in step**, and tells the same slot in words, where the
next slot has a number of 32 bits. -/
theorem Mirrors.add (h : w.Mirrors t) (hsize : t.size < UInt32.size) (keep : Bool) :
    (w.add s keep).1.toNat = (t.add s keep).1 ∧ (w.add s keep).2.Mirrors (t.add s keep).2 := by
  have hfirst := h.first s
  have hanswer := StringTable.fst_add t s keep
  have hrow := StringTable.toList_add t s keep
  cases hw : w.indexOf? s with
  | some i =>
      -- the string has a slot, so the index stays as it is
      rw [hw, Option.map_some] at hfirst
      rw [← hfirst, Option.getD_some] at hanswer
      have hmem : s ∈ t.toList := by
        refine StringTable.contains_eq_true_iff.mp ?_
        rw [StringTable.contains, ← hfirst, Option.isSome_some]
      rw [add_of_some hw]
      refine ⟨hanswer.symm, ?_, fun r => ?_⟩
      · cases keep with
        | false =>
            rw [if_pos ⟨hmem, rfl⟩] at hrow
            exact h.slots.trans hrow.symm
        | true =>
            have hkeep : ¬(s ∈ t.toList ∧ true = false) := fun hk => Bool.noConfusion hk.2
            rw [if_neg hkeep, ← h.slots] at hrow
            exact Array.toList_push.trans hrow.symm
      · have hsame : (if keep then { w with slots := w.slots.push s } else w).indexOf? r =
            w.indexOf? r := by
          cases keep <;> rfl
        rw [hsame, StringTable.indexOf?_add, h.first, hanswer]
        split_ifs with hr
        · rw [hr, hfirst]
        · rfl
  | none =>
      -- the next slot is the string's first one, and its number is told by its low bits
      rw [hw, Option.map_none] at hfirst
      rw [← hfirst, Option.getD_none] at hanswer
      have hnew := StringTable.indexOf?_eq_none_iff.mp hfirst.symm
      have hlow : (UInt32.ofNat w.slots.size).toNat = t.size := by
        have hslots : w.slots.size = t.size := congrArg List.length h.slots
        rw [hslots, UInt32.toNat_ofNat_of_lt' hsize]
      rw [add_of_none hw]
      refine ⟨hlow.trans hanswer.symm, ?_, fun r => ?_⟩
      · rw [hrow, if_neg fun hk => hnew hk.1, ← h.slots]
        exact Array.toList_push
      · rw [StringTable.indexOf?_add, hanswer, WordTable.indexOf?, Std.HashMap.getElem?_insert]
        by_cases hr : r = s
        · rw [if_pos hr, if_pos (beq_iff_eq.mpr hr.symm), Option.map_some, hlow]
        · rw [if_neg hr, if_neg fun heq => hr (beq_iff_eq.mp heq).symm]
          exact h.first r

/-- A run of additions keeps a row and an index in step. -/
theorem Mirrors.addAll {as : List Addition} :
    ∀ {w : WordTable} {t : StringTable}, w.Mirrors t → (t.addAll as).size < UInt32.size →
      (w.addAll as).Mirrors (t.addAll as) := by
  induction as with
  | nil => exact fun h _ => h
  | cons a as ih =>
      intro w t h hsize
      have hle : t.size ≤ (t.addAll (a :: as)).size :=
        StringTable.size_le_of_prefix StringTable.prefix_addAll
      exact ih (h.add (Nat.lt_of_le_of_lt hle hsize) a.keep).2 hsize

end

end WordTable

/-! ## Runs from empty rows -/

namespace StringTable

/-- Whether a row of strings, and one beside an index of words, are what a run of additions makes of
empty ones. -/
structure Interns (as : List Addition) (t : StringTable) (w : WordTable) : Prop where
  row : t.toList = kept [] as
  first : ∀ (s : String) (i : Nat),
    t.indexOf? s = some i ↔ t.get? i = some s ∧ ∀ j < i, t.get? j ≠ some s
  absent : ∀ s : String, t.indexOf? s = none ↔ s ∉ t.toList
  contains : ∀ s : String, t.contains s = true ↔ s ∈ t.toList
  wordSlots : w.slots.toList = t.toList
  wordGet : ∀ i : UInt32, w.get? i = t.get? i.toNat
  wordIndex : ∀ s : String,
    (w.indexOf? s).map UInt32.toNat = t.indexOf? s ∧ w.contains s = t.contains s
  /-- What an addition answers, and what it leaves as it is. -/
  answer : ∀ (before : List Addition) (a : Addition) (after : List Addition),
    as = before ++ a :: after →
      let answer := (empty.addAll before).add a.string a.keep
      answer.2.indexOf? a.string = some answer.1 ∧ t.indexOf? a.string = some answer.1 ∧
        (empty.addAll before).toList <+: t.toList ∧
        ((WordTable.empty.addAll before).add a.string a.keep).1.toNat = answer.1

/-- **What a run of additions does.** The row is what takes a slot. A string resolves to the first
slot that holds it, and to none if no slot does. An addition tells the slot that its string resolves
to then and at the end, and the slots before it stay as they are. While the slots have numbers of 32
bits, a row beside an index of words gives the same answers. -/
theorem interns_addAll {as : List Addition} (h : (kept [] as).length < UInt32.size) :
    Interns as (empty.addAll as) (WordTable.empty.addAll as) := by
  let t := empty.addAll as
  let w := WordTable.empty.addAll as
  have hslots : t.toList = kept [] as := toList_addAll fun _ => Iff.rfl
  have hsize : t.size < UInt32.size := by rwa [size_eq, hslots]
  have hw : w.Mirrors t := WordTable.mirrors_empty.addAll hsize
  have hwords : w.slots.toList = t.toList ∧ (∀ i, w.get? i = t.get? i.toNat) ∧
      ∀ s, (w.indexOf? s).map UInt32.toNat = t.indexOf? s ∧ w.contains s = t.contains s :=
    ⟨hw.slots, fun _ => hw.get?, fun s => ⟨hw.first s, hw.contains⟩⟩
  refine ⟨hslots, fun s i => indexOf?_eq_some_iff, fun s => indexOf?_eq_none_iff,
    fun s => contains_eq_true_iff, hwords.1, hwords.2.1, hwords.2.2, ?_⟩
  intro before a after has answer
  have ht : t = answer.2.addAll after := by
    rw [← addAll_cons, ← addAll_append, ← has]
  have hafter : answer.2.toList <+: t.toList := by
    rw [ht]
    exact prefix_addAll
  have hbefore : (empty.addAll before).toList <+: t.toList :=
    (prefix_add _ a.string a.keep).trans hafter
  have hle := size_le_of_prefix hbefore
  have hlt := Nat.lt_of_le_of_lt hle hsize
  have hself : answer.2.indexOf? a.string = some answer.1 := indexOf?_add_self _ _ _
  exact ⟨hself, indexOf?_of_prefix hafter hself, hbefore,
    ((WordTable.mirrors_empty.addAll hlt).add hlt a.keep).1⟩

/-- A string that comes again takes a slot only where it is to be kept, and resolves to its first
one. -/
theorem interns_addAll_repeated :
    let as : List Addition :=
      [⟨"x", true⟩, ⟨"y", false⟩, ⟨"x", true⟩, ⟨"z", false⟩, ⟨"x", false⟩]
    (kept [] as).length < UInt32.size ∧ (empty.addAll as).toList = ["x", "y", "x", "z"] ∧
      (empty.addAll as).indexOf? "x" = some 0 ∧ (empty.addAll as).indexOf? "z" = some 3 ∧
      (empty.addAll as).contains "w" = false := by
  intro as
  have hlt : (kept [] as).length < UInt32.size := by decide
  have hinterns := interns_addAll hlt
  have hrow : (empty.addAll as).toList = ["x", "y", "x", "z"] := hinterns.row.trans (by decide)
  refine ⟨hlt, hrow, (hinterns.first "x" 0).mpr ?_, (hinterns.first "z" 3).mpr ?_, ?_⟩
  · simp only [get?_eq, hrow]
    decide
  · simp only [get?_eq, hrow]
    decide
  · rw [← Bool.not_eq_true, hinterns.contains, hrow]
    decide

end StringTable

end SourceMap

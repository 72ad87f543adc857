import Std.Data.TreeMap

/-!
# Tables of strings

A table is a row of slots that only grows. A string resolves to the first slot that holds it, and an
index beside the row finds that slot without a scan. A string that is already there may be given a
slot again, which keeps the row aligned with a table read from a map, but it still resolves to its
first one.

Slots count up without a bound here. A table that keeps them in words gives the same answers as long
as it has no more slots than there are words (`StringTable.interns_addAll`), and only for such
tables do results about maps and builders describe one that does.
-/

set_option autoImplicit false

namespace SourceMap

/-- A row of strings with an index of first occurrences. -/
structure StringTable where
  slots : Array String
  first : Std.TreeMap String Nat
  /-- The index finds the first slot of each string, and no string that has none. -/
  first_eq : ∀ s : String, first[s]? = slots.toList.idxOf? s

namespace StringTable

/-- The table without slots. -/
def empty : StringTable where
  slots := #[]
  first := ∅
  first_eq s := by simp

instance : Inhabited StringTable := ⟨empty⟩

/-- The slot a string resolves to. -/
def indexOf? (t : StringTable) (s : String) : Option Nat :=
  t.first[s]?

/-- A string resolves to the first slot that holds it. -/
theorem indexOf?_eq (t : StringTable) (s : String) :
    t.indexOf? s = t.slots.toList.idxOf? s :=
  t.first_eq s

/-- Whether a string is in the table. -/
def contains (t : StringTable) (s : String) : Bool :=
  (t.indexOf? s).isSome

/-- The string in a slot. -/
def get? (t : StringTable) (i : Nat) : Option String :=
  t.slots[i]?

/-- The number of slots, repeated strings included. -/
def size (t : StringTable) : Nat :=
  t.slots.size

/-- The strings, slot by slot. -/
def toList (t : StringTable) : List String :=
  t.slots.toList

/-- Gives a string that is already in the table one more slot. -/
private def repeated (t : StringTable) (s : String) (i : Nat) (found : t.indexOf? s = some i) :
    StringTable where
  slots := t.slots.push s
  first := t.first
  first_eq r := by
    rw [t.first_eq r, Array.toList_push]
    unfold List.idxOf?
    rw [List.findIdx?_append, List.findIdx?_singleton]
    by_cases h : s = r
    · subst h
      have := t.indexOf?_eq s
      rw [found] at this
      unfold List.idxOf? at this
      rw [← this]
      rfl
    · simp [h]

/-- Gives a string that is not in the table its first slot. -/
private def fresh (t : StringTable) (s : String) (missing : t.indexOf? s = none) :
    StringTable where
  slots := t.slots.push s
  first := t.first.insert s t.slots.size
  first_eq r := by
    rw [Std.TreeMap.getElem?_insert, Array.toList_push]
    unfold List.idxOf?
    rw [List.findIdx?_append, List.findIdx?_singleton]
    by_cases h : s = r
    · subst h
      have := t.indexOf?_eq s
      rw [missing] at this
      unfold List.idxOf? at this
      rw [← this]
      simp
    · have := t.first_eq r
      unfold List.idxOf? at this
      simp [h, this]

/-- Adds a string and tells the slot it resolves to. A string that is already there takes a further
slot only if `keep` says so. -/
def add (t : StringTable) (s : String) (keep : Bool) : Nat × StringTable :=
  match h : t.indexOf? s with
  | some i => (i, if keep then t.repeated s i h else t)
  | none => (t.size, t.fresh s h)

/-- Just the strings that are in no slot resolve to none. -/
theorem indexOf?_eq_none_iff {t : StringTable} {s : String} :
    t.indexOf? s = none ↔ s ∉ t.toList := by
  rw [indexOf?_eq, List.idxOf?_eq_none_iff]
  rfl

/-- What adding does to the row. -/
theorem toList_add (t : StringTable) (s : String) (keep : Bool) :
    (t.add s keep).2.toList =
      if s ∈ t.toList ∧ keep = false then t.toList else t.toList ++ [s] := by
  unfold add
  split
  · rename_i i h
    have hs : s ∈ t.toList := by
      refine Classical.byContradiction fun hs => ?_
      simp [indexOf?_eq_none_iff.2 hs] at h
    have ht : (t.repeated s i h).toList = t.toList ++ [s] := Array.toList_push
    cases keep <;> simp [hs, ht]
  · rename_i h
    have hs := indexOf?_eq_none_iff.1 h
    have ht : (t.fresh s h).toList = t.toList ++ [s] := Array.toList_push
    simp [hs, ht]

/-- Adding tells the slot that the string resolves to from then on. -/
theorem indexOf?_add_self (t : StringTable) (s : String) (keep : Bool) :
    (t.add s keep).2.indexOf? s = some (t.add s keep).1 := by
  unfold add
  split
  · rename_i i h
    cases keep
    · exact h
    · exact h
  · simp [fresh, indexOf?, size]

/-- Adds a string unless it is there already. -/
def insert (t : StringTable) (s : String) : StringTable :=
  (t.add s false).2

/-- The table of a list of strings, with or without a slot for each repetition. -/
def ofList (ss : List String) (keep : Bool) : StringTable :=
  ss.foldl (fun t s => (t.add s keep).2) empty

end StringTable

end SourceMap

import Mathlib
import SourceMap.StringTable

/-!
# Slots of string tables

A string that resolves to a slot is the one in it (`get?_of_indexOf?`), and slots stay as they are
while a table grows (`get?_of_prefix`). Registering the strings of a list puts just these strings
into a table (`mem_register`).
-/

set_option autoImplicit false

namespace SourceMap.StringTable

/-! ## Slots -/

theorem size_eq (t : StringTable) : t.size = t.toList.length := rfl

theorem get?_eq (t : StringTable) (i : Nat) : t.get? i = t.toList[i]? :=
  (Array.getElem?_toList ..).symm

/-- A string resolves to the first slot that holds it. -/
theorem indexOf?_eq_some_iff {t : StringTable} {s : String} {i : Nat} :
    t.indexOf? s = some i ↔ t.get? i = some s ∧ ∀ j < i, t.get? j ≠ some s := by
  have hget : ∀ j, t.get? j = some s ↔ ∃ hj : j < t.slots.toList.length, t.slots.toList[j] = s := by
    intro j
    rw [get?_eq]
    exact List.getElem?_eq_some_iff
  rw [indexOf?_eq, List.idxOf?_eq_some_iff, hget]
  constructor
  · rintro ⟨hlt, heq, hbefore⟩
    refine ⟨⟨hlt, heq⟩, fun j hj hjs => ?_⟩
    obtain ⟨_, hjeq⟩ := (hget j).mp hjs
    exact hbefore j hj hjeq
  · rintro ⟨⟨hlt, heq⟩, hbefore⟩
    exact ⟨hlt, heq, fun j hj hjeq => hbefore j hj ((hget j).mpr ⟨_, hjeq⟩)⟩

/-- The slot that a string resolves to holds the string. -/
theorem get?_of_indexOf? {t : StringTable} {s : String} {i : Nat} (h : t.indexOf? s = some i) :
    t.get? i = some s :=
  (indexOf?_eq_some_iff.mp h).1

/-- A slot that holds a string is one of the table. -/
theorem lt_size_of_get? {t : StringTable} {s : String} {i : Nat} (h : t.get? i = some s) :
    i < t.size := by
  rw [get?_eq] at h
  exact (List.getElem?_eq_some_iff.mp h).1

/-- In a table without repetitions a string resolves to the slot that holds it. -/
theorem indexOf?_of_get? {t : StringTable} (h : t.toList.Nodup) {s : String} {i : Nat}
    (hi : t.get? i = some s) : t.indexOf? s = some i := by
  refine indexOf?_eq_some_iff.mpr ⟨hi, fun j hj hjs => ?_⟩
  rw [get?_eq] at hi hjs
  obtain ⟨hlt, rfl⟩ := List.getElem?_eq_some_iff.mp hi
  obtain ⟨hjlt, heq⟩ := List.getElem?_eq_some_iff.mp hjs
  have hji := (List.Nodup.getElem_inj_iff h).mp heq
  omega

/-- A string of the table resolves to a slot. -/
theorem exists_indexOf? {t : StringTable} {s : String} (h : s ∈ t.toList) :
    ∃ i, t.indexOf? s = some i := by
  cases hi : t.indexOf? s with
  | none => exact absurd h (indexOf?_eq_none_iff.mp hi)
  | some i => exact ⟨i, rfl⟩

/-! ## Growing -/

theorem prefix_add (t : StringTable) (s : String) (keep : Bool) :
    t.toList <+: (t.add s keep).2.toList := by
  rw [toList_add]
  split
  · exact List.prefix_rfl
  · exact List.prefix_append _ _

/-- Slots stay as they are while a table grows. -/
theorem get?_of_prefix {t t' : StringTable} (h : t.toList <+: t'.toList) {i : Nat}
    (hi : i < t.size) : t'.get? i = t.get? i := by
  obtain ⟨more, hmore⟩ := h
  rw [get?_eq, get?_eq, ← hmore]
  exact List.getElem?_append_left hi

/-- A table that grows has no fewer slots. -/
theorem size_le_of_prefix {t t' : StringTable} (h : t.toList <+: t'.toList) :
    t.size ≤ t'.size := by
  rw [size_eq, size_eq]
  exact h.length_le

/-- The slot that adding tells holds the string. -/
theorem get?_add_self (t : StringTable) (s : String) (keep : Bool) :
    (t.add s keep).2.get? (t.add s keep).1 = some s :=
  get?_of_indexOf? (t.indexOf?_add_self s keep)

/-- What is added is in the table from then on, and nothing else gets into it. -/
theorem mem_add {t : StringTable} {r s : String} {keep : Bool} :
    r ∈ (t.add s keep).2.toList ↔ r = s ∨ r ∈ t.toList := by
  rw [toList_add]
  split_ifs with h
  · constructor
    · exact Or.inr
    · rintro (rfl | hr)
      · exact h.1
      · exact hr
  · rw [List.mem_append, List.mem_singleton, or_comm]

theorem mem_insert {t : StringTable} {r s : String} :
    r ∈ (t.insert s).toList ↔ r ∈ t.toList ∨ r = s := by
  rw [insert, mem_add, or_comm]

/-! ## Registering -/

/-- The table with a string, if there is one. -/
def register (t : StringTable) : Option String → StringTable
  | none => t
  | some s => t.insert s

/-- Registering the strings of a list puts them, and no others, into the table. -/
theorem mem_register {os : List (Option String)} {s : String} :
    ∀ {t : StringTable}, s ∈ (os.foldl register t).toList ↔ s ∈ t.toList ∨ some s ∈ os := by
  induction os with
  | nil => intro t; simp
  | cons o os ih =>
      intro t
      rw [List.foldl_cons, ih, List.mem_cons]
      cases o with
      | none => simp [register]
      | some r => simp [register, mem_insert, or_assoc]

/-- A string that is inserted gets no second slot. -/
theorem nodup_insert {t : StringTable} (h : t.toList.Nodup) (s : String) :
    (t.insert s).toList.Nodup := by
  rw [insert, toList_add]
  by_cases hs : s ∈ t.toList
  · simpa [hs] using h
  · simpa [hs, List.nodup_append] using ⟨h, fun r hr heq => hs (heq ▸ hr)⟩

/-- Registering gives no string a second slot. -/
theorem nodup_register {os : List (Option String)} :
    ∀ {t : StringTable}, t.toList.Nodup → (os.foldl register t).toList.Nodup := by
  induction os with
  | nil => exact fun h => h
  | cons o os ih =>
      intro t h
      refine ih ?_
      cases o with
      | none => exact h
      | some s => exact nodup_insert h s

end SourceMap.StringTable

import Mathlib
import SourceMap.Proofs.Builder

/-!
# Sorting logs

A log compares a mapping that is added with the last one only. Nevertheless, after any number of
additions and of rewritings that keep the generated positions, it knows whether all positions were
added in order (`Leads.honest`), since a rewriting changes none of them (`Leads.generated`). So its
sorted mappings are those it has, as they are just if the positions were added in order, and
otherwise in the order of all parts (`sorting_of_leads`).

A machine has lists of mappings in memory. It sorts a log by the address of what comes out, which is
that of the log if that is in order, and that of a sorted copy otherwise
(`Machine.sorted_of_holds`).
-/

set_option autoImplicit false

namespace SourceMap

/-- Lists with the same mappings, both in order, have the same positions one after the other. -/
theorem Mapping.map_generated_eq {as bs : List Mapping} (h : as.Perm bs) (has : InOrder as)
    (hbs : InOrder bs) : as.map Mapping.generated = bs.map Mapping.generated :=
  eq_of_perm_of_pairwise_isLE compare (h.map _) (inOrder_iff.mp has) (inOrder_iff.mp hbs)

namespace MappingLog

open Mapping (InOrder)

/-! ## Runs -/

/-- The logs that adding and rewriting mappings leads to, with the positions that were added. -/
inductive Leads : List Position → MappingLog → Prop
  | new : Leads [] {}
  | add {added : List Position} {l : MappingLog} (m : Mapping) :
      Leads added l → Leads (added ++ [m.generated]) (l.add m)
  | rewrite {added : List Position} {l : MappingLog} {ms : List Mapping} :
      Leads added l → ms.map Mapping.generated = l.mappings.toList.map Mapping.generated →
      Leads added (l.replace ms)

variable {added : List Position} {l : MappingLog}

/-- **The mappings of a log are where they were added.** -/
theorem Leads.generated (h : Leads added l) :
    l.mappings.toList.map Mapping.generated = added := by
  induction h with
  | new => rfl
  | add m _ ih =>
      rw [Builder.mappings_add, List.map_append, ih]
      rfl
  | rewrite _ hms ih => exact hms.trans ih

/-- **A log knows whether its mappings are in order**, whatever was done with it. -/
theorem Leads.honest (h : Leads added l) : l.Honest := by
  induction h with
  | new => exact ⟨fun _ => List.Pairwise.nil, fun _ => rfl⟩
  | add m _ ih => exact ih.add m
  | rewrite _ hms ih => exact ih.replace hms

/-- The mappings are in order just if their positions were added in order. -/
theorem Leads.inOrder_iff (h : Leads added l) :
    InOrder l.mappings.toList ↔ added.Pairwise fun p q => (compare p q).isLE = true := by
  rw [Mapping.inOrder_iff, h.generated]

/-- An honest log is left as it is just if it is in order. -/
theorem Honest.sorted_eq_iff (h : l.Honest) :
    l.sorted = l.mappings.toList ↔ InOrder l.mappings.toList := by
  constructor
  · intro heq
    rw [← heq]
    exact h.inOrder_sorted
  · intro hin
    rw [sorted, if_pos (h.mpr hin)]

/-- An honest log that is not in order is put in the order of all parts of its mappings. -/
theorem Honest.pairwise_sorted (h : l.Honest) (hin : ¬ InOrder l.mappings.toList) :
    l.sorted.Pairwise fun a b => (compare a b).isLE = true := by
  rw [sorted, if_neg fun hflag => hin (h.mp hflag)]
  exact Mapping.pairwise_sort _

/-! ## In memory -/

/-- A log in memory. -/
structure Machine where
  /-- The lists of mappings, by their addresses. -/
  memory : Array (Array Mapping)
  /-- The address of the mappings of the log. -/
  address : Nat
  inOrder : Bool

namespace Machine

/-- Whether a machine has a log. -/
structure Holds (s : Machine) (l : MappingLog) : Prop where
  mappings : s.memory[s.address]? = some l.mappings
  inOrder : s.inOrder = l.inOrder

/-- The machine with a sorted copy of mappings behind everything else: they are copied first, and
sorted where the copy is. -/
def pushSorted (s : Machine) (ms : Array Mapping) : Machine :=
  { s with
    memory := (s.memory.push ms).modify s.memory.size fun copy =>
      (Mapping.sort copy.toList).toArray }

/-- The address of the sorted mappings, once they are in memory: that of the log, or that of a
sorted copy. Nothing, where the log has no mappings in memory. -/
def sorted (s : Machine) : Option (Machine × Nat) :=
  if s.inOrder then some (s, s.address)
  else s.memory[s.address]?.map fun ms => (s.pushSorted ms, s.memory.size)

variable {s : Machine}

/-- The copy is sorted. -/
theorem getElem?_pushSorted (s : Machine) (ms : Array Mapping) :
    (s.pushSorted ms).memory[s.memory.size]? = some (Mapping.sort ms.toList).toArray := by
  rw [pushSorted, Array.getElem?_modify, if_pos rfl, Array.getElem?_push_size, Option.map_some]

/-- What was copied is not. -/
theorem getElem?_pushSorted_of_lt (ms : Array Mapping) {a : Nat} (ha : a < s.memory.size) :
    (s.pushSorted ms).memory[a]? = s.memory[a]? := by
  rw [pushSorted, Array.getElem?_modify, if_neg (by omega), Array.getElem?_push, if_neg (by omega)]

/-- **Sorting reads a log and writes to none.** The sorted mappings are where the machine says they
are, at the address of the log just if the log is taken to be in order. Everything that was in
memory is as before, and so is the log. -/
theorem sorted_of_holds (h : s.Holds l) : ∃ s' address, s.sorted = some (s', address) ∧
    s'.memory[address]? = some l.sorted.toArray ∧ (address = s.address ↔ l.inOrder = true) ∧
    (∀ a, a < s.memory.size → s'.memory[a]? = s.memory[a]?) ∧ s'.Holds l := by
  obtain ⟨haddress, -⟩ := Array.getElem?_eq_some_iff.mp h.mappings
  have hflag := h.inOrder
  rw [sorted, MappingLog.sorted]
  by_cases hin : l.inOrder = true
  · rw [if_pos (hflag.trans hin), if_pos hin]
    exact ⟨s, s.address, rfl, h.mappings, iff_of_true rfl hin, fun _ _ => rfl, h⟩
  · rw [if_neg fun hs => hin (hflag.symm.trans hs), if_neg hin, h.mappings]
    have hframe (a : Nat) (ha : a < s.memory.size) :=
      getElem?_pushSorted_of_lt l.mappings ha
    exact ⟨s.pushSorted l.mappings, s.memory.size, rfl, getElem?_pushSorted s l.mappings,
      iff_of_false (Nat.ne_of_gt haddress) hin, hframe,
      (hframe s.address haddress).trans h.mappings, hflag⟩

end Machine

/-! ## Sorting -/

/-- How a log is sorted whose mappings were added at some positions. -/
structure Sorting (added : List Position) (l : MappingLog) : Prop where
  generated : l.mappings.toList.map Mapping.generated = added
  perm : l.sorted.Perm l.mappings.toList
  inOrder : InOrder l.sorted
  /-- The positions are those of the mappings sorted by all their parts. -/
  positions : l.sorted.map Mapping.generated =
    (Mapping.sort l.mappings.toList).map Mapping.generated
  kept_iff : l.sorted = l.mappings.toList ↔ added.Pairwise fun p q => (compare p q).isLE = true
  full : ¬ (added.Pairwise fun p q => (compare p q).isLE = true) →
    l.sorted.Pairwise fun a b => (compare a b).isLE = true
  /-- Nothing in memory is moved, and there is a copy just if one is needed. -/
  inMemory : ∀ s : Machine, s.Holds l → ∃ s' address, s.sorted = some (s', address) ∧
    s'.memory[address]? = some l.sorted.toArray ∧
    (address = s.address ↔ added.Pairwise fun p q => (compare p q).isLE = true) ∧
    (∀ a, a < s.memory.size → s'.memory[a]? = s.memory[a]?) ∧ s'.Holds l

/-- **Both ways to sort a log agree.** After any additions, and any rewritings that keep the
generated positions, a log has mappings where they were added. Sorting it permutes them so that no
position is before the one ahead of it, which gives the positions of the mappings sorted by all
their parts, whether this is how they were sorted or not. It leaves them as they are just if the
positions were added in order, and has them in the order of all their parts otherwise. The mappings
in memory are not moved by it, and are copied just if they were not added in order. -/
theorem sorting_of_leads (h : Leads added l) : Sorting added l where
  generated := h.generated
  perm := perm_sorted l
  inOrder := h.honest.inOrder_sorted
  positions := by
    have hperm := (perm_sorted l).trans (Mapping.perm_sort l.mappings.toList).symm
    exact Mapping.map_generated_eq hperm h.honest.inOrder_sorted (Mapping.inOrder_sort _)
  kept_iff := by rw [h.honest.sorted_eq_iff, h.inOrder_iff]
  full hadded := h.honest.pairwise_sorted fun hin => hadded (h.inOrder_iff.mp hin)
  inMemory s hs := by
    have hflag : l.inOrder = true ↔ _ := h.honest.trans h.inOrder_iff
    rw [← hflag]
    exact Machine.sorted_of_holds hs

/-- A log to which mappings came late, one of which got a source. -/
theorem sorting_of_leads_late :
    let late : Mapping := { generated := ⟨1, 8⟩ }
    let there : Mapping := { generated := ⟨1, 8⟩, original := some ⟨"a.js", ⟨1, 0⟩⟩ }
    let last : Mapping := { generated := ⟨2, 0⟩ }
    let l := (((({} : MappingLog).add last).add late).add late).replace [last, there, late]
    Leads [⟨2, 0⟩, ⟨1, 8⟩, ⟨1, 8⟩] l ∧ l.sorted = [late, there, last] ∧
      l.sorted ≠ l.mappings.toList ∧
      ∃ s address, Machine.sorted ⟨#[#[late], l.mappings], 1, false⟩ = some (s, address) ∧
        address ≠ 1 ∧ s.memory[1]? = some #[last, there, late] := by
  intro late there last l
  have hleads : Leads [⟨2, 0⟩, ⟨1, 8⟩, ⟨1, 8⟩] l :=
    .rewrite (((Leads.new.add last).add late).add late) rfl
  have hsorting := sorting_of_leads hleads
  have hadded : ¬ ([⟨2, 0⟩, ⟨1, 8⟩, ⟨1, 8⟩] : List Position).Pairwise
      fun p q => (compare p q).isLE = true := by decide
  have hperm' : [last, there, late].Perm [late, there, last] := by decide
  have hsorted : l.sorted = [late, there, last] :=
    eq_of_perm_of_pairwise_isLE compare (hsorting.perm.trans hperm') (hsorting.full hadded)
      (by decide)
  obtain ⟨s, address, hs, -, haddress, hframe, -⟩ :=
    hsorting.inMemory ⟨#[#[late], l.mappings], 1, false⟩ ⟨rfl, rfl⟩
  exact ⟨hleads, hsorted, mt hsorting.kept_iff.mp hadded, s, address, hs, mt haddress.mp hadded,
    hframe 1 (by decide)⟩

end MappingLog

end SourceMap

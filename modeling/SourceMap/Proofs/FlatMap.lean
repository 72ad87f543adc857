import Mathlib
import SourceMap.FlatMap
import SourceMap.Proofs.Except
import SourceMap.Proofs.StringTable

/-!
# Flat maps loaded

A record without sections is loaded if it has contents for all of its sources or none at all
(`exists_loads`), and only then (`aligned_of_ofRecord`). The sources and names of the record keep
their slots, those that are repeated included, so that its `mappings` text stays valid
(`loads_of_ofRecord`).
-/

set_option autoImplicit false

namespace SourceMap

namespace StringTable

theorem toList_foldl_add (ss : List String) : ∀ t : StringTable,
    (ss.foldl (fun t s => (t.add s true).2) t).toList = t.toList ++ ss := by
  induction ss with
  | nil => exact fun t => (List.append_nil _).symm
  | cons s ss ih =>
      intro t
      rw [List.foldl_cons, ih, toList_add, if_neg (by simp), List.append_assoc]
      rfl

/-- A table that keeps repetitions has a slot for every string. -/
theorem toList_ofList (ss : List String) : (ofList ss true).toList = ss :=
  toList_foldl_add ss empty

end StringTable

namespace FlatMap

/-- Whether a flat map is the one that a record describes. -/
structure Loads (r : Record) (f : FlatMap) : Prop where
  file : f.file = r.file
  /-- An empty root is none. -/
  root : f.root = r.sourceRoot.filter (!·.isEmpty)
  sources : f.sources.toList = (r.sources.getD []).map (storedSource f.root)
  names : f.names.toList = r.names.getD []
  contents : f.contents = r.sourcesContent.map List.toArray
  table : f.table = MappingTable.decode (r.mappings.getD "")
    { sources := f.sources.size, names := f.names.size }

/-- Whether a record has contents for all of its sources, if it has any. -/
def Aligned (r : Record) : Prop :=
  ∀ contents, r.sourcesContent = some contents → contents.length = (r.sources.getD []).length

theorem exists_loads {r : Record} (h : Aligned r) : ∃ f, ofRecord r = .ok f ∧ Loads r f := by
  unfold ofRecord
  dsimp only
  split
  · rename_i hnone
    exact ⟨_, rfl, rfl, rfl, StringTable.toList_ofList _, StringTable.toList_ofList _,
      by rw [hnone], rfl⟩
  · rename_i contents hsome
    rw [if_pos (h contents hsome)]
    exact ⟨_, rfl, rfl, rfl, StringTable.toList_ofList _, StringTable.toList_ofList _,
      by rw [hsome], rfl⟩

/-- Contents for another number of sources are refused. -/
theorem aligned_of_ofRecord {r : Record} {f : FlatMap} (h : ofRecord r = .ok f) : Aligned r := by
  intro contents hcontents
  by_contra hne
  unfold ofRecord at h
  rw [hcontents] at h
  dsimp only at h
  rw [if_neg hne] at h
  cases h

/-- What is loaded is what the record describes. -/
theorem loads_of_ofRecord {r : Record} {f : FlatMap} (h : ofRecord r = .ok f) : Loads r f := by
  obtain ⟨f', hf', hloads⟩ := exists_loads (aligned_of_ofRecord h)
  rw [h] at hf'
  cases hf'
  exact hloads

end FlatMap

end SourceMap

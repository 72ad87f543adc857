import Mathlib
import SourceMap.Proofs.Contents
import SourceMap.Proofs.Detour
import SourceMap.Proofs.Operations

/-!
# Contents in the map of a builder, and in the map of its record

The map that a builder has at once always has a table of contents. Its record has one only if the
builder has a content, and a map without the table says of every source, in the map or not, that it
has no content. So both maps answer alike for the sources of the builder, and for all others where
the builder has any content (`contentFor_toMap_iff`).
-/

set_option autoImplicit false

namespace SourceMap

/-- Where there is no root, sources are seen as they are. -/
theorem SourceRoot.relativize_none (s : String) : relativize none s = s := rfl

/-! ## Flat maps with a content for each source -/

namespace FlatMap

variable {f : FlatMap} {content : String → Option String}

/-- Whether the contents of a map are those that a function gives for its sources. -/
def Embeds (f : FlatMap) (content : String → Option String) : Prop :=
  f.contents = some (f.sources.toList.map content).toArray

theorem storedContent?_eq (f : FlatMap) (content : String → Option String) (s : String) :
    f.storedContent? (f.sources.toList.map content).toArray s =
      if s ∈ f.sources.toList then some (content s) else none := by
  rw [storedContent?]
  split_ifs with hs
  · obtain ⟨i, hi⟩ := StringTable.exists_indexOf? hs
    have hslot := StringTable.get?_of_indexOf? hi
    rw [StringTable.get?_eq] at hslot
    rw [hi, Option.map_some, List.getElem?_toArray, List.getElem?_map, hslot]
    rfl
  · rw [StringTable.indexOf?_eq_none_iff.mpr hs, Option.map_none]

/-- Without a root, a source has the content in its slot, and one that is not in the map is
missing. -/
theorem Embeds.contentFor_eq (h : f.Embeds content) (hroot : f.root = none) (s : String)
    (nullOnMissing : Bool) :
    f.contentFor s nullOnMissing =
      if s ∈ f.sources.toList then .ok (content s)
      else if nullOnMissing then .ok none else .error (.sourceNotFound s) := by
  have hspellings : f.spellings s = [s] := by
    rw [spellings, hroot]
    rfl
  rw [contentFor, h, hroot]
  simp only [SourceRoot.relativize_none, hspellings, List.findSome?_cons, List.findSome?_nil,
    storedContent?_eq]
  by_cases hs : s ∈ f.sources.toList
  · simp only [if_pos hs]
  · simp only [if_neg hs]

theorem Embeds.hasAllContents_iff (h : f.Embeds content) :
    f.hasAllContents = true ↔ ∀ s ∈ f.sources.toList, (content s).isSome := by
  rw [hasAllContents, h]
  simp [StringTable.size_eq]

end FlatMap

/-! ## The same contents in two ways -/

namespace Builder

variable {b : Builder}

/-- Whether a builder has a content for any source, one of its own or not. -/
def HasContent (b : Builder) : Prop :=
  ∃ source text, b.contentOf source = some text

/-- Without a root, the builders with a table are those with a content. -/
theorem Reachable.hasContent_iff (hb : b.Reachable) (hroot : b.root = none) :
    b.HasContent ↔ b.contents ≠ none := by
  constructor
  · rintro ⟨source, text, htext⟩ hnone
    rw [contentOf, hnone] at htext
    cases htext
  · intro hsome
    obtain ⟨contents, hcontents⟩ := Option.ne_none_iff_exists'.mp hsome
    have hfull := hb.stocked contents hcontents
    obtain ⟨source, hsource⟩ := Std.TreeMap.isEmpty_eq_false_iff_exists_mem.mp hfull
    refine ⟨source, contents[source], ?_⟩
    rw [contentOf, hcontents, hroot, SourceRoot.relativize_none]
    exact Std.TreeMap.getElem?_eq_some_getElem hsource

/-- Without a root, sources in normal form are loaded as they are, and with a table of contents if
the builder has one. -/
theorem exists_reloaded (hroot : b.root = none)
    (hnormal : ∀ s ∈ b.sources.toList, Path.normalize s = s) :
    ∃ f : FlatMap, LoadedMap.ofRecord b.toRecord = .ok (.flat f) ∧ f.root = none ∧
      f.sources.toList = b.sources.toList ∧
      f.contents = b.contents.map fun _ => b.sourcesContent.toArray := by
  obtain ⟨f, hf, -, hfroot, hstored, -, -⟩ := b.ofRecord_toRecord
  rw [hroot, Option.filter_none] at hfroot
  have hflat : FlatMap.ofRecord b.toRecord = .ok f := by
    obtain ⟨f', hf', hsame⟩ := map_eq_ok_iff.mp hf
    cases hsame
    exact hf'
  refine ⟨f, hf, hfroot, ?_, ?_⟩
  · rw [hstored, hfroot]
    refine (List.map_congr_left fun s hs => ?_).trans (List.map_id _)
    exact FlatMap.storedSource_of_normal (hnormal s hs) fun r hr => nomatch hr
  · rw [(FlatMap.loads_of_ofRecord hflat).contents]
    exact Option.map_map ..

theorem exists_toMap (b : Builder) : ∃ f : FlatMap, b.toMap = .flat f ∧ f.root = b.root ∧
    f.sources = b.sources ∧ f.Embeds b.contentOf :=
  ⟨_, rfl, rfl, rfl, rfl⟩

/-- What the map of a builder without root says of a source. -/
theorem contentFor_toMap (hroot : b.root = none) (s : String) (nullOnMissing : Bool) :
    b.toMap.contentFor s nullOnMissing =
      if s ∈ b.sources.toList then .ok (b.contentOf s)
      else if nullOnMissing then .ok none else .error (.sourceNotFound s) := by
  obtain ⟨f, hf, hfroot, hsources, hembeds⟩ := b.exists_toMap
  rw [hf, ← hsources]
  exact hembeds.contentFor_eq (hfroot.trans hroot) s nullOnMissing

/-- The map of a builder has all contents if the builder has them. -/
theorem hasAllContents_toMap (b : Builder) :
    b.toMap.hasAllContents = true ↔ ∀ s ∈ b.sources.toList, (b.contentOf s).isSome := by
  obtain ⟨f, hf, -, hsources, hembeds⟩ := b.exists_toMap
  rw [hf, ← hsources]
  exact hembeds.hasAllContents_iff

/-- **When a builder and its record have the same contents.** The record of a builder without root,
with sources in normal form, is loaded. If the builder has any content, the map that is loaded
answers as the map that the builder has at once. If it has none, the map that is loaded calls no
source missing and never has all contents. So the two differ for a source that the builder does not
have, which its map calls missing, and for a builder without sources, whose map has all contents.
This is about string tables whose slots have numbers of 32 bits. -/
theorem contentFor_toMap_iff (hb : b.Reachable) (hroot : b.root = none)
    (hnormal : ∀ s ∈ b.sources.toList, Path.normalize s = s) :
    ∃ m, LoadedMap.ofRecord b.toRecord = .ok m ∧
      (∀ s nullOnMissing, m.contentFor s nullOnMissing = b.toMap.contentFor s nullOnMissing ↔
        s ∈ b.sources.toList ∨ nullOnMissing = true ∨ b.HasContent) ∧
      (m.hasAllContents = b.toMap.hasAllContents ↔ b.sources.toList ≠ [] ∨ b.HasContent) ∧
      (¬ b.HasContent → (∀ s nullOnMissing, m.contentFor s nullOnMissing = .ok none) ∧
        m.hasAllContents = false) := by
  obtain ⟨f, hf, hfroot, hsources, hcontents⟩ := exists_reloaded hroot hnormal
  refine ⟨.flat f, hf, ?_⟩
  by_cases hhas : b.HasContent
  · -- both maps have the table, slot by slot the same
    obtain ⟨contents, hsome⟩ :=
      Option.ne_none_iff_exists'.mp ((hb.hasContent_iff hroot).mp hhas)
    have hembeds : f.Embeds b.contentOf := by
      rw [FlatMap.Embeds, hcontents, hsome, hsources]
      rfl
    have hanswers (s : String) (nullOnMissing : Bool) :
        (LoadedMap.flat f).contentFor s nullOnMissing = b.toMap.contentFor s nullOnMissing := by
      rw [contentFor_toMap hroot, ← hsources]
      exact hembeds.contentFor_eq hfroot s nullOnMissing
    have hall : (LoadedMap.flat f).hasAllContents = b.toMap.hasAllContents := by
      rw [Bool.eq_iff_iff, hasAllContents_toMap, ← hsources]
      exact hembeds.hasAllContents_iff
    exact ⟨fun s nullOnMissing => iff_of_true (hanswers s nullOnMissing) (.inr (.inr hhas)),
      iff_of_true hall (.inr hhas), fun hnone => absurd hhas hnone⟩
  · have hnone : b.contents = none := by
      rwa [hb.hasContent_iff hroot, not_not] at hhas
    have hcontentOf (s : String) : b.contentOf s = none := by
      rw [contentOf, hnone, Option.bind_none]
    rw [hnone, Option.map_none] at hcontents
    have hanswers (s : String) (nullOnMissing : Bool) :
        (LoadedMap.flat f).contentFor s nullOnMissing = .ok none := by
      rw [LoadedMap.contentFor, FlatMap.contentFor, hcontents]
    have hall : (LoadedMap.flat f).hasAllContents = false := by
      rw [LoadedMap.hasAllContents, FlatMap.hasAllContents, hcontents]
    refine ⟨?_, ?_, fun _ => ⟨hanswers, hall⟩⟩
    · intro s nullOnMissing
      rw [hanswers, contentFor_toMap hroot, hcontentOf]
      by_cases hs : s ∈ b.sources.toList
      · simp [hs]
      · cases nullOnMissing <;> simp [hs, hhas]
    · rw [hall, eq_comm, ← Bool.not_eq_true, hasAllContents_toMap]
      simp only [hcontentOf, Option.isSome_none, Bool.false_eq_true, hhas, or_false]
      rw [ne_eq, List.eq_nil_iff_forall_not_mem]

/-- A builder with a content for a source that it does not have. -/
theorem contentFor_toMap_iff_other :
    let m : Mapping := { generated := ⟨1, 0⟩, original := some ⟨"a.js", ⟨1, 0⟩⟩ }
    ∃ b : Builder, b.root = none ∧ b.mappings = [m] ∧ b.sources.toList = ["a.js"] ∧
      b.contentOf "b.js" = some "text" ∧
      ∃ loaded, LoadedMap.ofRecord b.toRecord = .ok loaded ∧
        (∀ s nullOnMissing,
          loaded.contentFor s nullOnMissing = b.toMap.contentFor s nullOnMissing) ∧
        loaded.hasAllContents = b.toMap.hasAllContents := by
  intro m
  have hadded := Reachable.addMapping m (.new none none) (addMapping_eq_ok_iff.mpr ⟨rfl, rfl⟩)
  obtain ⟨b, hb, hroot, hmappings, hsources, hcontent⟩ : ∃ b : Builder, b.Reachable ∧
      b.root = none ∧ b.mappings = [m] ∧ b.sources.toList = ["a.js"] ∧
      b.contentOf "b.js" = some "text" :=
    ⟨_, hadded.setContent "b.js" (some "text"), rfl, rfl, rfl,
      (contentOf_setContent ..).trans (if_pos rfl)⟩
  have hnormal : ∀ s ∈ b.sources.toList, Path.normalize s = s := by
    rw [hsources]
    decide +kernel
  have hhas : b.HasContent := ⟨"b.js", "text", hcontent⟩
  obtain ⟨loaded, hloaded, hanswers, hall, -⟩ := contentFor_toMap_iff hb hroot hnormal
  refine ⟨b, hroot, hmappings, hsources, hcontent, loaded, hloaded, ?_, ?_⟩
  · exact fun s nullOnMissing => (hanswers s nullOnMissing).mpr (.inr (.inr hhas))
  · exact hall.mpr (.inr hhas)

/-- Without any content, the map of the record calls no source missing. -/
theorem contentFor_without_contents :
    let m : Mapping := { generated := ⟨1, 0⟩, original := some ⟨"a.js", ⟨1, 0⟩⟩ }
    ∃ (b : Builder) (loaded : LoadedMap), b.Reachable ∧ b.root = none ∧ b.mappings = [m] ∧
      (∀ s ∈ b.sources.toList, Path.normalize s = s) ∧
      LoadedMap.ofRecord b.toRecord = .ok loaded ∧
      b.toMap.contentFor "b.js" false = .error (.sourceNotFound "b.js") ∧
      loaded.contentFor "b.js" false = .ok none := by
  intro m
  have hadded := Reachable.addMapping m (.new none none) (addMapping_eq_ok_iff.mpr ⟨rfl, rfl⟩)
  obtain ⟨b, hb, hroot, hmappings, hsources, hnone⟩ : ∃ b : Builder, b.Reachable ∧ b.root = none ∧
      b.mappings = [m] ∧ b.sources.toList = ["a.js"] ∧ b.contents = none :=
    ⟨_, hadded, rfl, rfl, rfl, rfl⟩
  have hnormal : ∀ s ∈ b.sources.toList, Path.normalize s = s := by
    rw [hsources]
    decide +kernel
  obtain ⟨f, hf, -, -, hcontents⟩ := exists_reloaded hroot hnormal
  refine ⟨b, .flat f, hb, hroot, hmappings, hnormal, hf, ?_, ?_⟩
  · rw [contentFor_toMap hroot, hsources, if_neg (by decide), if_neg (by decide)]
  · rw [LoadedMap.contentFor, FlatMap.contentFor, hcontents, hnone, Option.map_none]

end Builder

end SourceMap

import Mathlib
import SourceMap.Proofs.Builder

/-!
# What can be made

`Builder.Reachable` and `LoadedMap.Reachable` are the builders and maps that can be made by any
sequence of operations, each kind from the other. Whatever can be made is sound
(`Builder.Reachable.sound`, `LoadedMap.Reachable.sound`).
-/

set_option autoImplicit false

namespace SourceMap

/-! ## The entries of a builder -/

namespace Builder

/-- How many slots the string tables of a builder have. -/
def sizes (b : Builder) : TableSizes :=
  { sources := b.sources.size, names := b.names.size }

/-- The entry of a mapping without fault belongs to the tables. -/
theorem fits_entry {b : Builder} {m : Mapping} (h : m.fault? = none) :
    (b.entry m).Fits b.sizes := by
  obtain ⟨hline, holine, -⟩ := Mapping.fault?_eq_none_iff.mp h
  obtain ⟨generated, _ | o, name⟩ := m
  · refine ⟨hline, ?_, ?_, ?_⟩
    · rintro origin ⟨⟩
    · rintro origin ⟨⟩
    · rintro origin ⟨⟩
  · refine ⟨hline, ?_, ?_, ?_⟩
    · intro origin horigin
      obtain ⟨slot, -, rfl⟩ := Option.map_eq_some_iff.mp horigin
      exact holine o rfl
    · intro origin horigin
      obtain ⟨slot, hslot, rfl⟩ := Option.map_eq_some_iff.mp horigin
      exact StringTable.lt_size_of_get? (StringTable.get?_of_indexOf? hslot)
    · intro origin horigin n hn
      obtain ⟨slot, -, rfl⟩ := Option.map_eq_some_iff.mp horigin
      obtain ⟨s, -, hs⟩ := Option.bind_eq_some_iff.mp hn
      exact StringTable.lt_size_of_get? (StringTable.get?_of_indexOf? hs)

/-- **The map of a sound builder is sound.** -/
theorem Sound.toMap {b : Builder} (h : b.Sound) : b.toMap.Sound := by
  refine .flat fun v hv => ?_
  obtain ⟨t, ht, rfl⟩ := map_eq_ok_iff.mp hv
  cases ht
  intro e he
  obtain ⟨m, hm, rfl⟩ := List.mem_map.mp ((Entry.perm_sortGenerated _).mem_iff.mp he)
  exact fits_entry (h.faultless m hm)

end Builder

/-! ## Sequences of operations -/

mutual

/-- The builders that can be made by operations. -/
inductive Builder.Reachable : Builder → Prop
  | new (file root : Option String) : Builder.Reachable { file, root }
  | ofMap {m : LoadedMap} {b : Builder} :
      m.Reachable → Builder.ofMap m = .ok b → b.Reachable
  | addMapping {b b' : Builder} (m : Mapping) :
      b.Reachable → b.addMapping m = .ok b' → b'.Reachable
  | setContent {b : Builder} (source : String) (content : Option String) :
      b.Reachable → (b.setContent source content).Reachable
  | applyMap {b b' : Builder} {m : LoadedMap} (file path : Option String) :
      b.Reachable → m.Reachable → b.applyMap m file path = .ok b' → b'.Reachable

/-- The loaded maps that can be made by operations. Computing spans changes a map also where it
fails, and each section of a map is a map. -/
inductive LoadedMap.Reachable : LoadedMap → Prop
  | ofRecord {r : Record} {m : LoadedMap} : LoadedMap.ofRecord r = .ok m → m.Reachable
  | toMap {b : Builder} : b.Reachable → b.toMap.Reachable
  | computeSpans {m : LoadedMap} : m.Reachable → m.computeSpans.2.Reachable
  | section {m : LoadedMap} {sections : List (Placed LoadedMap)} {s : Placed LoadedMap} :
      m.Reachable → m.sections? = some sections → s ∈ sections → s.map.Reachable

end

theorem LoadedMap.Sound.section {m : LoadedMap} {sections : List (Placed LoadedMap)}
    (h : m.Sound) (hsections : m.sections? = some sections) {s : Placed LoadedMap}
    (hs : s ∈ sections) : s.map.Sound := by
  cases h with
  | flat _ => cases hsections
  | index hsound _ =>
      cases hsections
      exact hsound s hs

mutual

/-- **Every builder that can be made is sound.** -/
theorem Builder.Reachable.sound : ∀ {b : Builder}, b.Reachable → b.Sound
  | _, .new file root => Builder.sound_new file root
  | _, .ofMap _ hb => .ofMap hb
  | _, .addMapping _ hb hadd => hb.sound.addMapping hadd
  | _, .setContent source content hb =>
      (Builder.sameMappings_setContent _ source content).sound hb.sound
  | _, .applyMap _ _ hb hm happly => hb.sound.applyMap hm.sound happly

/-- **Every map that can be made is sound.** -/
theorem LoadedMap.Reachable.sound : ∀ {m : LoadedMap}, m.Reachable → m.Sound
  | _, .ofRecord hm => .ofRecord _ hm
  | _, .toMap hb => hb.sound.toMap
  | _, .computeSpans hm => hm.sound.computeSpans
  | _, .section hm hsections hs => hm.sound.section hsections hs

end

/-- What holds of new builders and of those that start from a map, and is kept by all operations,
holds of every builder that can be made. -/
theorem Builder.Reachable.induction {p : Builder → Prop} {b : Builder} (h : b.Reachable)
    (hnew : ∀ file root, p { file, root })
    (hofMap : ∀ {m : LoadedMap} {b : Builder}, m.Reachable → Builder.ofMap m = .ok b → p b)
    (haddMapping : ∀ {b b' : Builder} {m : Mapping}, b.Reachable → b.addMapping m = .ok b' →
      p b → p b')
    (hsetContent : ∀ {b : Builder} (source : String) (content : Option String), b.Reachable →
      p b → p (b.setContent source content))
    (happlyMap : ∀ {b b' : Builder} {m : LoadedMap} {file path : Option String}, b.Reachable →
      m.Reachable → b.applyMap m file path = .ok b' → p b → p b') : p b :=
  match b, h with
  | _, .new file root => hnew file root
  | _, .ofMap hm hb => hofMap hm hb
  | _, .addMapping _ hb hadd => haddMapping hb hadd
      (hb.induction hnew hofMap haddMapping hsetContent happlyMap)
  | _, .setContent source content hb => hsetContent source content hb
      (hb.induction hnew hofMap haddMapping hsetContent happlyMap)
  | _, .applyMap _ _ hb hm happly => happlyMap hb hm happly
      (hb.induction hnew hofMap haddMapping hsetContent happlyMap)

/-- What holds of the maps that a record describes and of those that a builder makes, and is kept by
computing spans and passes on to sections, holds of every map that can be made. -/
theorem LoadedMap.Reachable.induction {p : LoadedMap → Prop} {m : LoadedMap} (h : m.Reachable)
    (hofRecord : ∀ {r : Record} {m : LoadedMap}, LoadedMap.ofRecord r = .ok m → p m)
    (htoMap : ∀ b : Builder, p b.toMap)
    (hcomputeSpans : ∀ {m : LoadedMap}, p m → p m.computeSpans.2)
    (hsection : ∀ {m : LoadedMap} {sections : List (Placed LoadedMap)} {s : Placed LoadedMap},
      m.sections? = some sections → s ∈ sections → p m → p s.map) : p m :=
  match m, h with
  | _, .ofRecord hm => hofRecord hm
  | _, .toMap _ => htoMap _
  | _, .computeSpans hm => hcomputeSpans (hm.induction hofRecord htoMap hcomputeSpans hsection)
  | _, .section hm hsections hs =>
      hsection hsections hs (hm.induction hofRecord htoMap hcomputeSpans hsection)

end SourceMap

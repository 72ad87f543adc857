import Mathlib
import SourceMap.Proofs.Json.Grammar
import SourceMap.Proofs.LoadedMap
import SourceMap.Record.Writer

/-!
# What an object says of a record

An object says of a record what its fields say (`Record.Describes`). All values of a key that a
record has must be of the type of this key, and the last of them counts (`Json.Value.Last`). A field
that is null is absent, and keys that a record does not have say nothing.

A record as an object (`Record.toJson`) has a field for everything in the record that is not
absent. It describes this record and no other (`describes_toJson`), and all its numbers are portable
(`portable_toJson`).
-/

set_option autoImplicit false

namespace SourceMap

open Json (Value)

/-! ## Values of a type -/

namespace Json.Value

/-- The values that an object has for a key. -/
def valuesOf (key : String) (fields : List (String × Value)) : List Value :=
  (fields.filter (·.1 == key)).map Prod.snd

/-- Whether a value is of some kind, or null. -/
inductive IsNullable {α : Type} (p : Value → α → Prop) : Value → Option α → Prop
  | null : IsNullable p .null none
  | some {v : Value} {a : α} : p v a → IsNullable p v (some a)

/-- Whether a value is an array of values of some kind. -/
inductive IsList {α : Type} (p : Value → α → Prop) : Value → List α → Prop
  | array {vs : List Value} {as : List α} : List.Forall₂ p vs as → IsList p (.array vs) as

/-- Whether values are all of some kind, and what the last of them stands for. -/
inductive Last {α : Type} (p : Value → α → Prop) : List Value → Option α → Prop
  | nil : Last p [] none
  | concat {vs : List Value} {v : Value} {before : Option α} {a : α} :
      Last p vs before → p v a → Last p (vs ++ [v]) (some a)

/-- Whether a value is a whole number of 32 bits. -/
def IsWord (v : Value) (w : UInt32) : Prop :=
  v = .nat w.toNat

/-- Whether a value is a string. -/
def IsString (v : Value) (s : String) : Prop :=
  v = .string s

end Json.Value

open Json.Value

/-- Whether an object has both numbers of an offset. -/
inductive IsOffset : Value → Offset → Prop
  | object {fields : List (String × Value)} {o : Offset} :
      Last IsWord (valuesOf "line" fields) (some o.line) →
      Last IsWord (valuesOf "column" fields) (some o.column) → IsOffset (.object fields) o

namespace Record

/-- Whether an object is a section. What its map may be is left open. -/
inductive SectionOf (IsMap : Value → Record → Prop) : Value → Section Record → Prop
  | object {fields : List (String × Value)} {offset : Offset} {map : Option (Option Record)}
      {url : Option (Option String)} : Last IsOffset (valuesOf "offset" fields) (some offset) →
      Last (IsNullable IsMap) (valuesOf "map" fields) map →
      Last (IsNullable IsString) (valuesOf "url" fields) url →
      SectionOf IsMap (.object fields) { offset, map := map.join, url := url.join }

/-- Whether an object says of a record what this record is. -/
inductive Describes : Value → Record → Prop
  | object {fields : List (String × Value)} {version : Option (Option UInt32)}
      {file sourceRoot mappings : Option (Option String)}
      {sources sourcesContent : Option (Option (List (Option String)))}
      {names : Option (Option (List String))} {sections : Option (Option (List (Section Record)))} :
      Last (IsNullable IsWord) (valuesOf "version" fields) version →
      Last (IsNullable IsString) (valuesOf "file" fields) file →
      Last (IsNullable IsString) (valuesOf "sourceRoot" fields) sourceRoot →
      Last (IsNullable (IsList (IsNullable IsString))) (valuesOf "sources" fields) sources →
      Last (IsNullable (IsList (IsNullable IsString))) (valuesOf "sourcesContent" fields)
        sourcesContent →
      Last (IsNullable (IsList IsString)) (valuesOf "names" fields) names →
      Last (IsNullable IsString) (valuesOf "mappings" fields) mappings →
      Last (IsNullable (IsList (SectionOf Describes))) (valuesOf "sections" fields) sections →
      Describes (.object fields)
        { version := version.join, file := file.join, sourceRoot := sourceRoot.join
          sources := sources.join, sourcesContent := sourcesContent.join, names := names.join
          mappings := mappings.join, sections := sections.join }

end Record

/-! ## Records as objects -/

namespace Json.Value

/-- The fields that are there. -/
def present (fields : List (String × Option Value)) : List (String × Value) :=
  fields.filterMap fun (key, v) => v.map (key, ·)

theorem ofFields_eq (fields : List (String × Option Value)) :
    ofFields fields = .object (present fields) := rfl

/-- The values of a key are those of its fields that are there. -/
theorem valuesOf_present (key : String) (fields : List (String × Option Value)) :
    valuesOf key (present fields) =
      fields.flatMap fun f => if f.1 = key then f.2.toList else [] := by
  induction fields with
  | nil => rfl
  | cons f fields ih =>
      obtain ⟨key', _ | v⟩ := f
      · simp [← ih, present]
      · by_cases h : key' = key <;> simp [← ih, present, valuesOf, h]

theorem isString_string (s : String) : IsString (.string s) s := rfl

theorem isWord_nat (w : UInt32) : IsWord (.nat w.toNat) w := rfl

section

variable {α : Type} {p : Value → α → Prop} {write : α → Value}

/-- A field that is written when it is there stands for what is written. -/
theorem last_toList (h : ∀ a, p (write a) a) (x : Option α) :
    Last (IsNullable p) (x.map write).toList (x.map some) := by
  cases x with
  | none => exact .nil
  | some a => exact .concat .nil (.some (h a))

theorem isList_map (h : ∀ a, p (write a) a) (as : List α) : IsList p (.array (as.map write)) as :=
  .array (List.forall₂_map_left_iff.mpr (List.forall₂_same.mpr fun a _ => h a))

end

theorem isNullable_ofNullable (o : Option String) : IsNullable IsString (ofNullable o) o := by
  cases o with
  | none => exact .null
  | some s => exact .some rfl

theorem portable_nat {n : Nat} (h : n < 2 ^ 53) : Portable (.nat n) :=
  .number (by simpa using h)

theorem portable_word (w : UInt32) : Portable (.nat w.toNat) :=
  portable_nat (w.toNat_lt.trans (by decide))

theorem portable_ofNullable (o : Option String) : Portable (ofNullable o) := by
  cases o with
  | none => exact .null
  | some s => exact .string s

theorem portable_map {α : Type} {write : α → Value} (h : ∀ a, Portable (write a)) (as : List α) :
    Portable (.array (as.map write)) := by
  refine .array fun v hv => ?_
  obtain ⟨a, -, rfl⟩ := List.mem_map.mp hv
  exact h a

/-- An object is portable if the fields that are there are. -/
theorem portable_ofFields {fields : List (String × Option Value)}
    (h : ∀ f ∈ fields, ∀ v, f.2 = some v → Portable v) : Portable (ofFields fields) := by
  refine .object fun f hf => ?_
  obtain ⟨⟨key, v⟩, hmem, hv⟩ := List.mem_filterMap.mp hf
  obtain ⟨v', rfl, rfl⟩ := Option.map_eq_some_iff.mp hv
  exact h _ hmem v' rfl

@[simp]
theorem join_map_some {α : Type} (x : Option α) : (x.map some).join = x := by
  cases x <;> rfl

end Json.Value

namespace Offset

/-- An offset as an object. -/
def toJson (o : Offset) : Value :=
  .object [("line", .nat o.line.toNat), ("column", .nat o.column.toNat)]

theorem isOffset_toJson (o : Offset) : IsOffset o.toJson o :=
  .object (.concat .nil rfl) (.concat .nil rfl)

theorem portable_toJson (o : Offset) : Portable o.toJson := by
  refine .object ?_
  simp [portable_word]

end Offset

namespace Record

/-- The fields of a record that are not sections. -/
def plainFields (r : Record) : List (String × Option Value) :=
  [("version", r.version.map fun v => .nat v.toNat),
    ("file", r.file.map .string),
    ("sourceRoot", r.sourceRoot.map .string),
    ("sources", r.sources.map fun ss => .array (ss.map .ofNullable)),
    ("sourcesContent", r.sourcesContent.map fun ss => .array (ss.map .ofNullable)),
    ("names", r.names.map fun ss => .array (ss.map .string)),
    ("mappings", r.mappings.map .string)]

mutual

/-- A record as an object. -/
def toJson : Record → Value
  | ⟨version, file, sourceRoot, sources, sourcesContent, names, mappings, sections⟩ =>
    .ofFields (plainFields
        { version, file, sourceRoot, sources, sourcesContent, names, mappings } ++
      [("sections", match sections with
        | none => none
        | some ss => some (.array (sectionsToJson ss)))])
  termination_by structural r => r

/-- Sections as objects. -/
def sectionsToJson : List (Section Record) → List Value
  | [] => []
  | s :: ss => sectionToJson s :: sectionsToJson ss
  termination_by structural ss => ss

/-- A section as an object. -/
def sectionToJson : Section Record → Value
  | ⟨offset, map, url⟩ =>
    .ofFields
      [("offset", some offset.toJson),
        ("map", match map with
          | none => none
          | some r => some (toJson r)),
        ("url", url.map .string)]
  termination_by structural s => s

end

theorem sectionToJson_eq (s : Section Record) : sectionToJson s =
    .ofFields [("offset", some s.offset.toJson), ("map", s.map.map toJson),
      ("url", s.url.map .string)] := by
  obtain ⟨offset, _ | r, url⟩ := s
  · rfl
  · rfl

theorem sectionsToJson_eq (ss : List (Section Record)) :
    sectionsToJson ss = ss.map sectionToJson := by
  induction ss with
  | nil => rfl
  | cons s ss ih => rw [sectionsToJson, ih, List.map_cons]

theorem toJson_eq (r : Record) : r.toJson = .ofFields (r.plainFields ++
    [("sections", r.sections.map fun ss => .array (ss.map sectionToJson))]) := by
  obtain ⟨version, file, sourceRoot, sources, sourcesContent, names, mappings, _ | ss⟩ := r
  · rfl
  · rw [toJson, sectionsToJson_eq]
    rfl

/-- A section is what it is written as, if the record in it is. -/
theorem sectionOf_sectionToJson {s : Section Record}
    (h : ∀ r, s.map = some r → Describes r.toJson r) : SectionOf Describes (sectionToJson s) s := by
  obtain ⟨offset, map, url⟩ := s
  let fields := present
    [("offset", some offset.toJson), ("map", map.map toJson), ("url", url.map .string)]
  have hoffset : Last IsOffset (valuesOf "offset" fields) (some offset) := by
    simpa [fields, valuesOf_present] using Last.concat .nil offset.isOffset_toJson
  have hmap : Last (IsNullable Describes) (valuesOf "map" fields) (map.map some) := by
    simp only [fields, valuesOf_present]
    cases map with
    | none => exact .nil
    | some r => exact .concat .nil (.some (h r rfl))
  have hurl : Last (IsNullable IsString) (valuesOf "url" fields) (url.map some) := by
    simpa [fields, valuesOf_present] using last_toList isString_string url
  rw [sectionToJson_eq, ofFields_eq]
  simpa only [join_map_some] using SectionOf.object hoffset hmap hurl

/-- **What a record is written as describes this record.** -/
theorem describes_toJson (r : Record) : Describes r.toJson r := by
  induction r using Record.induction with
  | h r ih =>
      let fields := present (r.plainFields ++
        [("sections", r.sections.map fun ss => .array (ss.map sectionToJson))])
      have hnullables := isList_map isNullable_ofNullable
      have hversion : Last (IsNullable IsWord) (valuesOf "version" fields)
          (r.version.map some) := by
        simpa [fields, plainFields, valuesOf_present] using last_toList isWord_nat r.version
      have hfile : Last (IsNullable IsString) (valuesOf "file" fields) (r.file.map some) := by
        simpa [fields, plainFields, valuesOf_present] using last_toList isString_string r.file
      have hsourceRoot : Last (IsNullable IsString) (valuesOf "sourceRoot" fields)
          (r.sourceRoot.map some) := by
        simpa [fields, plainFields, valuesOf_present] using
          last_toList isString_string r.sourceRoot
      have hsources : Last (IsNullable (IsList (IsNullable IsString)))
          (valuesOf "sources" fields) (r.sources.map some) := by
        simpa [fields, plainFields, valuesOf_present] using last_toList hnullables r.sources
      have hcontents : Last (IsNullable (IsList (IsNullable IsString)))
          (valuesOf "sourcesContent" fields) (r.sourcesContent.map some) := by
        simpa [fields, plainFields, valuesOf_present] using
          last_toList hnullables r.sourcesContent
      have hnames : Last (IsNullable (IsList IsString)) (valuesOf "names" fields)
          (r.names.map some) := by
        simpa [fields, plainFields, valuesOf_present] using
          last_toList (isList_map isString_string) r.names
      have hmappings : Last (IsNullable IsString) (valuesOf "mappings" fields)
          (r.mappings.map some) := by
        simpa [fields, plainFields, valuesOf_present] using last_toList isString_string r.mappings
      have hsections : Last (IsNullable (IsList (SectionOf Describes)))
          (valuesOf "sections" fields) (r.sections.map some) := by
        simp only [fields, plainFields, valuesOf_present]
        cases hss : r.sections with
        | none => exact .nil
        | some ss =>
            have hsection (s : Section Record) (hs : s ∈ ss) :
                SectionOf Describes (sectionToJson s) s := sectionOf_sectionToJson (ih ss hss s hs)
            exact .concat .nil (.some (.array
              (List.forall₂_map_left_iff.mpr (List.forall₂_same.mpr hsection))))
      have hdescribes := Describes.object hversion hfile hsourceRoot hsources hcontents hnames
        hmappings hsections
      simp only [join_map_some] at hdescribes
      rw [toJson_eq, ofFields_eq]
      cases r
      exact hdescribes

theorem portable_plainFields (r : Record) :
    ∀ f ∈ r.plainFields, ∀ v, f.2 = some v → Portable v := by
  have hnullables (os : List (Option String)) : Portable (.array (os.map .ofNullable)) :=
    portable_map portable_ofNullable os
  simp only [plainFields, List.forall_mem_cons, Option.map_eq_some_iff, forall_exists_index,
    and_imp, forall_apply_eq_imp_iff₂, List.not_mem_nil, false_imp_iff, implies_true, and_true]
  exact ⟨fun w _ => portable_word w, fun s _ => .string s, fun s _ => .string s,
    fun os _ => hnullables os, fun os _ => hnullables os,
    fun ss _ => portable_map .string ss, fun s _ => .string s⟩

/-- The numbers that are written are those of versions and offsets. -/
theorem portable_toJson (r : Record) : Portable r.toJson := by
  induction r using Record.induction with
  | h r ih =>
      rw [toJson_eq]
      refine portable_ofFields fun f hf v hv => ?_
      rcases List.mem_append.mp hf with hf | hf
      · exact r.portable_plainFields f hf v hv
      · rw [List.mem_singleton.mp hf] at hv
        obtain ⟨ss, hss, rfl⟩ := Option.map_eq_some_iff.mp hv
        refine .array fun w hw => ?_
        obtain ⟨s, hs, rfl⟩ := List.mem_map.mp hw
        rw [sectionToJson_eq]
        refine portable_ofFields ?_
        simp only [List.forall_mem_cons, Option.map_eq_some_iff, forall_exists_index,
          and_imp, forall_apply_eq_imp_iff₂, List.not_mem_nil, false_imp_iff, implies_true,
          and_true, Option.some.injEq, forall_eq']
        exact ⟨s.offset.portable_toJson, ih ss hss s hs, fun url _ => .string url⟩

end Record

end SourceMap

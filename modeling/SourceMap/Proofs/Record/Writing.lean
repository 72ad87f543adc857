import Mathlib
import SourceMap.Proofs.Json.Value
import SourceMap.Proofs.Record.Meaning

/-!
# What is written of a record

The commas of a record are between its fields, whichever of them are there
(`FieldWriter.toList_out_fields_first`), and those of sections between sections
(`exists_writeSections`).
So what is written of a record is the text of its object (`Record.exists_writeTo`), for every
reading of what the text of a value is that allows texts without blanks (`Json.Compact`). It spells
this object (`Printer.Spells.spelledBy_writeTo`), and it is what is printed for the object where the
parts of the record are printed (`write_eq_render`).
-/

set_option autoImplicit false

namespace SourceMap

open Json (Value)

/-! ## Texts without blanks -/

namespace Json

/-- Texts with commas between them. -/
def commas : List (List Char) → List Char
  | [] => []
  | [cs] => cs
  | cs :: ds :: rest => cs ++ ',' :: commas (ds :: rest)

theorem commas_cons (cs : List Char) (rest : List (List Char)) :
    commas (cs :: rest) = cs ++ rest.flatMap (',' :: ·) := by
  induction rest generalizing cs with
  | nil => simp [commas]
  | cons ds rest ih => rw [commas, ih, List.flatMap_cons, List.cons_append]

/-- Whether a key needs no escapes. -/
def IsPlain (key : String) : Prop :=
  ∀ c ∈ key.toList, c ≠ '"' ∧ c ≠ '\\' ∧ 32 ≤ c.toNat

/-- The text of a field, with the text of its value. -/
def fieldText (key : String) (text : List Char) : List Char :=
  '"' :: (key.toList ++ '"' :: ':' :: text)

/-- Whether a relation between values and their texts holds of a text without blanks if it holds of
the texts of its parts. -/
structure Compact (q : Value → List Char → Prop) : Prop where
  nat (n : Nat) : q (.nat n) (Nat.toDigits 10 n)
  array {vs : List Value} {texts : List (List Char)} : List.Forall₂ q vs texts →
    q (.array vs) ('[' :: (commas texts ++ [']']))
  object {fields : List (String × Value)} {texts : List (List Char)} :
    List.Forall₂ (fun f text => IsPlain f.1 ∧ ∃ cs, text = fieldText f.1 cs ∧ q f.2 cs)
      fields texts → q (.object fields) ('\x7b' :: (commas texts ++ ['\x7d']))

theorem spellsString_of_isPlain {key : String} (h : IsPlain key) :
    SpellsString ('"' :: (key.toList ++ ['"'])) key := by
  refine ⟨key.toList, rfl, ?_⟩
  have hself : ∀ cs : List Char, (∀ c ∈ cs, c ≠ '"' ∧ c ≠ '\\' ∧ 32 ≤ c.toNat) →
      SpellsChars cs cs := by
    intro cs hcs
    induction cs with
    | nil => exact .nil
    | cons c cs ih =>
        obtain ⟨hquote, hslash, hcontrol⟩ := hcs c List.mem_cons_self
        have hrest := ih fun d hd => hcs d (List.mem_cons_of_mem c hd)
        exact .cons (.self hquote hslash hcontrol) hrest
  exact hself _ h

/-- **A text without blanks spells a value if its parts spell those of the value.** -/
theorem compact_spelledBy : Compact Value.SpelledBy where
  nat n := by
    show SpellsNumber _ _
    have hspells := spellsNumber_toChars (.whole n)
    rwa [Number.toChars, Number.intChars, if_neg (by omega), Int.natAbs_natCast] at hspells
  array {vs texts} h := by
    refine ⟨_, rfl, ?_⟩
    induction h with
    | nil => exact blank_nil
    | @cons v text vs texts hv hvs ih =>
        cases hvs with
        | nil => exact .of hv
        | cons _ _ => exact ⟨text, _, rfl, .of hv, ih⟩
  object {fields texts} h := by
    refine ⟨_, rfl, ?_⟩
    induction h with
    | nil => exact blank_nil
    | @cons f text fields texts hf hfs ih =>
        obtain ⟨key, v⟩ := f
        obtain ⟨hplain, cs, rfl, hcs⟩ := hf
        have hfield : Value.IsField key v.SpelledBy (fieldText key cs) :=
          ⟨'"' :: (key.toList ++ ['"']), cs, by simp [fieldText],
            .of (spellsString_of_isPlain hplain), .of hcs⟩
        cases hfs with
        | nil => exact hfield
        | cons _ _ => exact ⟨_, _, rfl, hfield, ih⟩

theorem flatMap_escaped_of_isPlain {key : String} (h : IsPlain key) :
    key.toList.flatMap Token.escaped = key.toList := by
  have hself : ∀ cs : List Char, (∀ c ∈ cs, c ≠ '"' ∧ c ≠ '\\' ∧ 32 ≤ c.toNat) →
      cs.flatMap Token.escaped = cs := by
    intro cs hcs
    induction cs with
    | nil => rfl
    | cons c cs ih =>
        obtain ⟨hquote, hslash, hcontrol⟩ := hcs c List.mem_cons_self
        have hne {d : Char} (hd : d.toNat < 32) : c ≠ d := by
          rintro rfl
          omega
        have hescaped : Token.escaped c = [c] := by
          simp [Token.escaped, hquote, hslash, hne (d := '\x08') (by decide),
            hne (d := '\t') (by decide), hne (d := '\n') (by decide),
            hne (d := '\x0c') (by decide), hne (d := '\r') (by decide), Nat.not_lt.mpr hcontrol]
        rw [List.flatMap_cons, hescaped, ih fun d hd => hcs d (List.mem_cons_of_mem c hd)]
        rfl
  exact hself _ h

/-- Values are printed without blanks. -/
theorem compact_render : Compact fun v cs => Value.spelling v.tokens = cs where
  nat n := by
    simp [Value.spelling, Value.nat, Value.tokens, Value.tokensThen, Token.toChars, Number.toChars,
      Number.intChars]
  array {vs texts} h := by
    have hinner : Value.spelling (Value.elementsThen vs []) = commas texts := by
      induction h with
      | nil => rfl
      | @cons v text vs texts hv hvs ih =>
          cases hvs with
          | nil => exact hv
          | cons _ _ =>
              rw [Value.elementsThen_cons_cons, commas, ← ih, ← hv]
              simp [Value.spelling, Token.toChars]
    rw [Value.tokens_array, ← hinner]
    simp [Value.spelling, Token.toChars]
  object {fields texts} h := by
    have hinner : Value.spelling (Value.fieldsThen fields []) = commas texts := by
      induction h with
      | nil => rfl
      | @cons f text fields texts hf hfs ih =>
          obtain ⟨key, v⟩ := f
          obtain ⟨hplain, cs, rfl, hcs⟩ := hf
          have hkey : key.toList.flatMap Token.escaped = key.toList :=
            flatMap_escaped_of_isPlain hplain
          cases hfs with
          | nil =>
              rw [Value.fieldsThen, commas, fieldText, ← hcs]
              simp [Value.spelling, hkey, Value.tokens, Token.toChars]
          | cons _ _ =>
              rw [Value.fieldsThen_cons_cons, commas, ← ih, fieldText, ← hcs]
              simp [Value.spelling, hkey, Token.toChars]
    rw [Value.tokens_object, ← hinner]
    simp [Value.spelling, Token.toChars]

/-! ## Texts of fields -/

/-- The texts of the fields that are there. -/
def fieldTexts (fields : List (String × Option String)) : List (List Char) :=
  fields.filterMap fun (key, text) => text.map fun text => fieldText key text.toList

/-- Whether a field is written as a text of its value, if it is there. -/
inductive IsWritten (q : Value → List Char → Prop) :
    String × Option Value → String × Option String → Prop
  | absent (key : String) : IsWritten q (key, none) (key, none)
  | present {key : String} {v : Value} {text : String} : IsPlain key → q v text.toList →
      IsWritten q (key, some v) (key, some text)

theorem IsWritten.map {α : Type} {q : Value → List Char → Prop} {key : String} (hkey : IsPlain key)
    {value : α → Value} {text : α → String} (h : ∀ a, q (value a) (text a).toList) (x : Option α) :
    IsWritten q (key, x.map value) (key, x.map text) := by
  cases x with
  | none => exact .absent key
  | some a => exact .present hkey (h a)

/-- An object is written field by field, without those that are not there. -/
theorem Compact.ofFields {q : Value → List Char → Prop} (h : Compact q)
    {fields : List (String × Option Value)} {texts : List (String × Option String)}
    (hfields : List.Forall₂ (IsWritten q) fields texts) :
    q (.ofFields fields) ('\x7b' :: (commas (fieldTexts texts) ++ ['\x7d'])) := by
  refine h.object ?_
  induction hfields with
  | nil => exact .nil
  | cons hf _ ih =>
      cases hf with
      | absent key => exact ih
      | present hplain hq => exact .cons ⟨hplain, _, rfl, hq⟩ ih

end Json

open Json (commas fieldText fieldTexts Compact IsPlain IsWritten)

namespace Record

/-! ## Fields -/

namespace FieldWriter

/-- Writes those fields that are there. -/
def fields (w : FieldWriter) (texts : List (String × Option String)) : FieldWriter :=
  texts.foldl (fun w f => w.optional f.1 f.2) w

/-- After the first field, every field comes behind a comma. -/
theorem toList_out_fields (texts : List (String × Option String)) : ∀ out : String,
    (fields { out, first := false } texts).out.toList =
      out.toList ++ (fieldTexts texts).flatMap (',' :: ·) := by
  induction texts with
  | nil => simp [fields, fieldTexts]
  | cons f texts ih =>
      intro out
      obtain ⟨name, _ | text⟩ := f
      · exact ih out
      · refine (ih _).trans ?_
        simp [key, fieldTexts, fieldText]

/-- **The fields of an object that are there have commas between them.** -/
theorem toList_out_fields_first (texts : List (String × Option String)) : ∀ out : String,
    (fields { out, first := true } texts).out.toList =
      out.toList ++ commas (fieldTexts texts) := by
  induction texts with
  | nil => simp [fields, fieldTexts, commas]
  | cons f texts ih =>
      intro out
      obtain ⟨name, _ | text⟩ := f
      · exact ih out
      · refine (toList_out_fields texts _).trans ?_
        have hcons : fieldTexts ((name, some text) :: texts) =
            fieldText name text.toList :: fieldTexts texts := rfl
        rw [hcons, Json.commas_cons]
        simp [key, fieldText]

end FieldWriter

/-! ## Records -/

/-- Whether the parts of a record are written as texts of their values. -/
structure Printer.Spells (p : Printer) (q : Value → List Char → Prop) : Prop where
  number (w : UInt32) : q (.nat w.toNat) (p.number w).toList
  string (s : String) : q (.string s) (p.string s).toList
  strings (ss : List String) : q (.array (ss.map .string)) (p.strings ss).toList
  nullables (os : List (Option String)) :
    q (.array (os.map .ofNullable)) (p.nullables os).toList

section

variable {p : Printer} {q : Value → List Char → Prop}

/-- The text of an offset. -/
def offsetText (o : Offset) : String :=
  "\x7b\"line\":" ++ toString o.line ++ ",\"column\":" ++ toString o.column ++ "\x7d"

theorem toList_toString_word (w : UInt32) : (toString w).toList = Nat.toDigits 10 w.toNat := by
  show (Nat.repr w.toNat).toList = _
  simp [Nat.repr]

theorem spells_offsetText (hq : Compact q) (o : Offset) : q o.toJson (offsetText o).toList := by
  have hline : IsPlain "line" := by simp [IsPlain]
  have hcolumn : IsPlain "column" := by simp [IsPlain]
  have hobject : q o.toJson _ := hq.object (.cons ⟨hline, _, rfl, hq.nat o.line.toNat⟩
    (.cons ⟨hcolumn, _, rfl, hq.nat o.column.toNat⟩ .nil))
  have htext : (offsetText o).toList =
      '\x7b' :: (commas [fieldText "line" (Nat.toDigits 10 o.line.toNat),
        fieldText "column" (Nat.toDigits 10 o.column.toNat)] ++ ['\x7d']) := by
    simp [offsetText, toList_toString_word, commas, fieldText]
  rw [htext]
  exact hobject

/-- The map of a section comes before its URL. -/
theorem writeSection_eq (p : Printer) (out : String) (s : Section Record) :
    writeSection p out s =
      let out := out ++ "\x7b\"offset\":" ++ offsetText s.offset
      let out := s.map.elim out fun r => writeTo p (out ++ ",\"map\":") r
      s.url.elim out (fun url => out ++ ",\"url\":" ++ p.string url) ++ "\x7d" := by
  have hoffset : out ++ "\x7b\"offset\":" ++ offsetText s.offset =
      out ++ "\x7b\"offset\":\x7b\"line\":" ++ toString s.offset.line ++ ",\"column\":" ++
        toString s.offset.column ++ "\x7d" := by
    apply String.toList_inj.mp
    simp [offsetText]
  rw [hoffset]
  obtain ⟨offset, _ | r, _ | url⟩ := s <;> rfl

/-- What is written of a section is a text of its object, if this holds of the record in it. -/
theorem exists_writeSection (hq : Compact q) (hp : p.Spells q) {s : Section Record}
    (h : ∀ r, s.map = some r → ∃ text, q r.toJson text ∧
      ∀ out, (writeTo p out r).toList = out.toList ++ text) :
    ∃ text, q (sectionToJson s) text ∧
      ∀ out, (writeSection p out s).toList = out.toList ++ text := by
  have hmap : ∃ map : Option String, IsWritten q ("map", s.map.map toJson) ("map", map) ∧
      ∀ out, (s.map.elim out fun r => writeTo p (out ++ ",\"map\":") r).toList =
        out.toList ++ (map.elim [] fun text => ',' :: fieldText "map" text.toList) := by
    cases hr : s.map with
    | none => exact ⟨none, .absent _, fun out => by simp⟩
    | some r =>
        obtain ⟨text, htext, hwrite⟩ := h r hr
        refine ⟨some (String.ofList text), .present (by simp [IsPlain]) (by simpa using htext), ?_⟩
        simp [hwrite, fieldText]
  obtain ⟨map, hmap, hwrite⟩ := hmap
  have hoffset : IsWritten q ("offset", some s.offset.toJson)
      ("offset", some (offsetText s.offset)) :=
    .present (by simp [IsPlain]) (spells_offsetText hq s.offset)
  have hurl : IsWritten q ("url", s.url.map .string) ("url", s.url.map p.string) :=
    .map (by simp [IsPlain]) hp.string s.url
  have hobject := hq.ofFields (.cons hoffset (.cons hmap (.cons hurl .nil)))
  refine ⟨_, by rwa [sectionToJson_eq], fun out => ?_⟩
  rw [writeSection_eq]
  cases map <;> cases hs : s.url <;> simp_all [commas, fieldTexts, fieldText]

/-- Sections have commas between them. -/
theorem exists_writeSections {ss : List (Section Record)}
    (h : ∀ s ∈ ss, ∃ text, q (sectionToJson s) text ∧
      ∀ out, (writeSection p out s).toList = out.toList ++ text) :
    ∃ texts, List.Forall₂ q (ss.map sectionToJson) texts ∧
      (∀ out index, (writeSections p out (index + 1) ss).toList =
        out.toList ++ texts.flatMap (',' :: ·)) ∧
      ∀ out, (writeSections p out 0 ss).toList = out.toList ++ commas texts := by
  induction ss with
  | nil => exact ⟨[], .nil, by simp [writeSections], by simp [writeSections, commas]⟩
  | cons s ss ih =>
      obtain ⟨text, hq, htext⟩ := h s List.mem_cons_self
      obtain ⟨texts, hqs, htexts, -⟩ := ih fun t ht => h t (List.mem_cons_of_mem s ht)
      refine ⟨text :: texts, .cons hq hqs, fun out index => ?_, fun out => ?_⟩
      · rw [writeSections, htexts, htext]
        simp
      · rw [writeSections, htexts, htext, Json.commas_cons]
        simp

/-- The texts of the fields of a record that are not sections. -/
def plainTexts (p : Printer) (r : Record) : List (String × Option String) :=
  [("version", r.version.map p.number), ("file", r.file.map p.string),
    ("sourceRoot", r.sourceRoot.map p.string), ("sources", r.sources.map p.nullables),
    ("sourcesContent", r.sourcesContent.map p.nullables), ("names", r.names.map p.strings),
    ("mappings", r.mappings.map p.string)]

theorem Printer.Spells.isWritten_plainTexts (hp : p.Spells q) (r : Record) :
    List.Forall₂ (IsWritten q) r.plainFields (plainTexts p r) := by
  have hkey : ∀ f ∈ r.plainFields, IsPlain f.1 := by simp [plainFields, IsPlain]
  simp only [plainFields, List.forall_mem_cons] at hkey
  obtain ⟨hversion, hfile, hroot, hsources, hcontents, hnames, hmappings, -⟩ := hkey
  exact .cons (.map hversion hp.number _) (.cons (.map hfile hp.string _)
    (.cons (.map hroot hp.string _) (.cons (.map hsources hp.nullables _)
    (.cons (.map hcontents hp.nullables _) (.cons (.map hnames hp.strings _)
    (.cons (.map hmappings hp.string _) .nil))))))

/-- A record is written field by field, and its sections come last. -/
theorem toList_writeTo {r : Record} {sections : Option String}
    (h : ∀ w : FieldWriter, (match r.sections with
      | none => w.out
      | some ss => writeSections p ((w.key "sections").out ++ "[") 0 ss ++ "]") =
        (w.optional "sections" sections).out) (out : String) :
    (writeTo p out r).toList = out.toList ++ '\x7b' ::
      (commas (fieldTexts (plainTexts p r ++ [("sections", sections)])) ++ ['\x7d']) := by
  have hwrite : writeTo p out r = (FieldWriter.fields { out := out ++ "\x7b", first := true }
      (plainTexts p r ++ [("sections", sections)])).out ++ "\x7d" := by
    obtain ⟨version, file, sourceRoot, sources, contents, names, mappings, _ | ss⟩ := r
    · exact congrArg (· ++ "\x7d") (h _)
    · exact congrArg (· ++ "\x7d") (h _)
  rw [hwrite, String.toList_append, FieldWriter.toList_out_fields_first]
  simp

/-- **What is written of a record is a text of its object**, behind whatever has been written
before. -/
theorem exists_writeTo (hq : Compact q) (hp : p.Spells q) (r : Record) :
    ∃ text, q r.toJson text ∧ ∀ out, (writeTo p out r).toList = out.toList ++ text := by
  induction r using Record.induction with
  | h r ih =>
      have hsections : ∃ sections : Option String,
          IsWritten q ("sections", r.sections.map fun ss => .array (ss.map sectionToJson))
            ("sections", sections) ∧
          ∀ w : FieldWriter, (match r.sections with
            | none => w.out
            | some ss => writeSections p ((w.key "sections").out ++ "[") 0 ss ++ "]") =
              (w.optional "sections" sections).out := by
        cases hss : r.sections with
        | none => exact ⟨none, .absent _, fun w => rfl⟩
        | some ss =>
            obtain ⟨texts, hqs, -, htexts⟩ := exists_writeSections fun s hs =>
              exists_writeSection hq hp (ih ss hss s hs)
            refine ⟨some (String.ofList ('[' :: (commas texts ++ [']']))),
              .present (by simp [IsPlain]) (by simpa using hq.array hqs), fun w => ?_⟩
            apply String.toList_inj.mp
            simp [htexts, FieldWriter.optional, FieldWriter.append]
      obtain ⟨sections, hsections, hwrite⟩ := hsections
      refine ⟨_, ?_, toList_writeTo hwrite⟩
      rw [toJson_eq]
      exact hq.ofFields (List.rel_append (hp.isWritten_plainTexts r) (.cons hsections .nil))

end

/-- **What is written of a record spells its object**, if the parts of the record are spelled. -/
theorem Printer.Spells.spelledBy_writeTo {p : Printer} (h : p.Spells Value.SpelledBy) (r : Record) :
    r.toJson.SpelledBy (writeTo p "" r).toList := by
  obtain ⟨text, hspells, hwrite⟩ := exists_writeTo Json.compact_spelledBy h r
  rw [hwrite]
  exact hspells

theorem spells_compact : compact.Spells fun v cs => Value.spelling v.tokens = cs where
  number _ := String.toList_ofList.symm
  string _ := String.toList_ofList.symm
  strings _ := String.toList_ofList.symm
  nullables _ := String.toList_ofList.symm

/-- **A record is written as its object is printed.** -/
theorem write_eq_render (r : Record) : r.write = r.toJson.render := by
  obtain ⟨text, hspells, hwrite⟩ := exists_writeTo Json.compact_render spells_compact r
  apply String.toList_inj.mp
  simp [write, hwrite, ← hspells, Value.render, Value.spelling]

end Record

end SourceMap

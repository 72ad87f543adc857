import Mathlib
import SourceMap.Proofs.Json.Value
import SourceMap.Proofs.Record.Meaning
import SourceMap.Record.Reader

/-!
# Reading what an object says

The record that an object describes is the one that it is read as (`ofJson?_of_describes`). The
fields are read one after the other, and after each of them what has been read is what the fields so
far say (`Last.split`). Records are inside of sections and these in arrays, so the whole goes by
induction over values (`isRead`).
-/

set_option autoImplicit false

namespace SourceMap

open Json (Value)

/-! ## The last of some values -/

namespace Json.Value

section

variable {α : Type} {p : Value → α → Prop} {read? : Value → Option α}

theorem Last.eq_none {o : Option α} (h : Last p [] o) : o = none := by
  generalize hws : [] = ws at h
  cases h with
  | nil => rfl
  | concat => simp at hws

theorem Last.exists_of_concat {vs : List Value} {v : Value} {o : Option α}
    (h : Last p (vs ++ [v]) o) : ∃ before a, Last p vs before ∧ p v a ∧ o = some a := by
  generalize hws : vs ++ [v] = ws at h
  cases h with
  | nil => simp at hws
  | @concat vs' v' before a hbefore ha =>
      obtain ⟨rfl, hv⟩ := List.append_inj' hws rfl
      obtain rfl := List.singleton_inj.mp hv
      exact ⟨before, a, hbefore, ha, rfl⟩

/-- A field is the last one of its own key, and of no other. -/
theorem Last.split {key name : String} {v : Value} {fields : List (String × Value)} {o : Option α}
    (h : Last p (valuesOf key (fields ++ [(name, v)])) o) :
    ∃ before, Last p (valuesOf key fields) before ∧
      if name = key then ∃ a, p v a ∧ o = some a else o = before := by
  by_cases hkey : name = key
  · have hvalues : valuesOf key (fields ++ [(name, v)]) = valuesOf key fields ++ [v] := by
      simp [valuesOf, hkey]
    rw [hvalues] at h
    obtain ⟨before, a, hbefore, ha, rfl⟩ := h.exists_of_concat
    exact ⟨before, hbefore, by rw [if_pos hkey]; exact ⟨a, ha, rfl⟩⟩
  · have hvalues : valuesOf key (fields ++ [(name, v)]) = valuesOf key fields := by
      simp [valuesOf, hkey]
    rw [hvalues] at h
    exact ⟨o, h, by rw [if_neg hkey]⟩

/-- If all values are read, the last of them is what they stand for. -/
theorem Last.mapM_eq (hread : ∀ v a, p v a → read? v = some a) {vs : List Value} {o : Option α}
    (h : Last p vs o) : ∃ as, vs.mapM read? = some as ∧ as.getLast? = o := by
  induction h with
  | nil => exact ⟨[], rfl, rfl⟩
  | @concat vs v before a _ ha ih =>
      obtain ⟨as, has, -⟩ := ih
      exact ⟨as ++ [a], by simp [List.mapM_append, has, hread v a ha], by simp⟩

theorem nullable?_of_isNullable {v : Value} (hread : ∀ a, p v a → read? v = some a)
    (hnull : ∀ a, ¬p .null a) {o : Option α} (h : IsNullable p v o) :
    v.nullable? read? = some o := by
  cases h with
  | null => rfl
  | some ha =>
      unfold nullable?
      split
      · exact absurd ha (hnull _)
      · rw [hread _ ha, Option.map_some]

theorem list?_of_isList (hread : ∀ v a, p v a → read? v = some a) {v : Value} {as : List α}
    (h : IsList p v as) : v.list? read? = some as := by
  cases h with
  | array hvs =>
      show List.mapM _ _ = _
      induction hvs with
      | nil => rfl
      | cons ha _ ih => simp [hread _ _ ha, ih]

/-- What a field that may be null has been read as, before the last field and with it. -/
theorem Last.split_nullable {key name : String} {v : Value} {fields : List (String × Value)}
    {o : Option (Option α)} (hread : ∀ a, p v a → read? v = some a) (hnull : ∀ a, ¬p .null a)
    (h : Last (IsNullable p) (valuesOf key (fields ++ [(name, v)])) o) :
    ∃ before, Last (IsNullable p) (valuesOf key fields) before ∧
      if name = key then v.nullable? read? = some o.join else o.join = before.join := by
  obtain ⟨before, hbefore, hlast⟩ := h.split
  refine ⟨before, hbefore, ?_⟩
  split_ifs at hlast ⊢ with hkey
  · obtain ⟨a, ha, rfl⟩ := hlast
    exact nullable?_of_isNullable hread hnull ha
  · rw [hlast]

end

theorem string?_of_isString (v : Value) (s : String) (h : IsString v s) : v.string? = some s := by
  rw [show v = .string s from h]
  rfl

theorem word?_of_isWord (v : Value) (w : UInt32) (h : IsWord v w) : v.word? = some w := by
  rw [show v = .nat w.toNat from h]
  exact Coordinate.ofInt?_eq_some_iff.mpr rfl

theorem strings_of_isList (v : Value) (ss : List String) (h : IsList IsString v ss) :
    v.list? string? = some ss :=
  list?_of_isList string?_of_isString h

theorem not_isString_null (s : String) : ¬IsString .null s := nofun

theorem not_isWord_null (w : UInt32) : ¬IsWord .null w := nofun

theorem not_isList_null {α : Type} {p : Value → α → Prop} (as : List α) : ¬IsList p .null as :=
  nofun

theorem nullables_of_isList (v : Value) (os : List (Option String))
    (h : IsList (IsNullable IsString) v os) : v.list? (nullable? string?) = some os :=
  list?_of_isList (fun v _ => nullable?_of_isNullable (string?_of_isString v) not_isString_null) h

end Json.Value

open Json.Value

/-! ## Offsets -/

theorem Offset.ofJson?_of_isOffset (v : Value) (o : Offset) (h : IsOffset v o) :
    ofJson? v = some o := by
  cases h with
  | @object fields o hline hcolumn =>
      obtain ⟨lines, hlines, hlast⟩ := hline.mapM_eq word?_of_isWord
      obtain ⟨columns, hcolumns, hlast'⟩ := hcolumn.mapM_eq word?_of_isWord
      have hmap (fields : List (String × Value)) :
          fields.mapM (·.2.word?) = (fields.map Prod.snd).mapM word? := by
        rw [List.mapM_map]
        rfl
      rw [valuesOf, ← hmap] at hlines hcolumns
      simp [ofJson?, hlines, hcolumns, hlast, hlast']

namespace Record

/-! ## Fields one after the other -/

theorem not_describes_null (r : Record) : ¬Describes .null r := nofun

/-- The sections that an array spells. -/
def sectionsValue? : Value → Option (List (Section Record))
  | .array vs => sectionsOf? vs
  | _ => none

theorem setAll?_cons {r : Record} {key : String} (hkey : key ≠ "sections") (v : Value)
    (fields : List (String × Value)) :
    setAll? r ((key, v) :: fields) = (r.setPlain? key v).bind (setAll? · fields) := by
  conv_lhs => unfold setAll?
  rw [if_neg hkey]
  cases r.setPlain? key v with
  | none => rfl
  | some r => rfl

theorem setAll?_sections (r : Record) (v : Value) (fields : List (String × Value)) :
    setAll? r (("sections", v) :: fields) =
      (v.nullable? sectionsValue?).bind fun sections => setAll? { r with sections } fields := by
  conv_lhs => unfold setAll?
  rw [if_pos rfl]
  cases v with
  | array vs =>
      show _ = ((sectionsOf? vs).map some).bind _
      dsimp only
      cases sectionsOf? vs <;> rfl
  | _ => rfl

theorem setAll?_append (fields more : List (String × Value)) : ∀ r : Record,
    setAll? r (fields ++ more) = (setAll? r fields).bind (setAll? · more) := by
  induction fields with
  | nil => exact fun r => rfl
  | cons f fields ih =>
      intro r
      obtain ⟨key, v⟩ := f
      by_cases hkey : key = "sections"
      · subst hkey
        rw [List.cons_append, setAll?_sections, setAll?_sections, Option.bind_assoc]
        simp only [ih]
      · rw [List.cons_append, setAll?_cons hkey, setAll?_cons hkey, Option.bind_assoc]
        simp only [ih]

theorem draftAll?_cons {d : Draft} {key : String} (hkey : key ≠ "map") (v : Value)
    (fields : List (String × Value)) :
    draftAll? d ((key, v) :: fields) = (d.setPlain? key v).bind (draftAll? · fields) := by
  conv_lhs => unfold draftAll?
  rw [if_neg hkey]
  cases d.setPlain? key v with
  | none => rfl
  | some d => rfl

theorem draftAll?_map (d : Draft) (v : Value) (fields : List (String × Value)) :
    draftAll? d (("map", v) :: fields) =
      (v.nullable? ofJson?).bind fun map => draftAll? { d with map } fields := by
  conv_lhs => unfold draftAll?
  rw [if_pos rfl]
  cases v with
  | object fields =>
      show _ = ((ofJson? _).map some).bind _
      dsimp only
      cases ofJson? (.object fields) <;> rfl
  | _ => rfl

theorem draftAll?_append (fields more : List (String × Value)) : ∀ d : Draft,
    draftAll? d (fields ++ more) = (draftAll? d fields).bind (draftAll? · more) := by
  induction fields with
  | nil => exact fun d => rfl
  | cons f fields ih =>
      intro d
      obtain ⟨key, v⟩ := f
      by_cases hkey : key = "map"
      · subst hkey
        rw [List.cons_append, draftAll?_map, draftAll?_map, Option.bind_assoc]
        simp only [ih]
      · rw [List.cons_append, draftAll?_cons hkey, draftAll?_cons hkey, Option.bind_assoc]
        simp only [ih]

/-! ## What fields say -/

/-- Whether a value is read as what it is, be it a record, a section or sections. -/
structure IsRead (v : Value) : Prop where
  record : ∀ r, Describes v r → ofJson? v = some r
  oneSection : ∀ s, SectionOf Describes v s → sectionOf? v = some s
  sections : ∀ ss, IsList (SectionOf Describes) v ss → sectionsValue? v = some ss

/-- **The fields of a record are read as what they say**, if the values in them are read. -/
theorem setAll?_of_describes {fields : List (String × Value)} (hfields : ∀ f ∈ fields, IsRead f.2) :
    ∀ {r : Record}, Describes (.object fields) r → setAll? empty fields = some r := by
  -- by induction on the fields from their end, as the last field of a key counts
  induction fields using List.reverseRecOn with
  | nil =>
      intro r h
      cases h with
      | object h₁ h₂ h₃ h₄ h₅ h₆ h₇ h₈ =>
          rw [h₁.eq_none, h₂.eq_none, h₃.eq_none, h₄.eq_none, h₅.eq_none, h₆.eq_none, h₇.eq_none,
            h₈.eq_none]
          rfl
  | append_singleton fields f ih =>
      obtain ⟨key, v⟩ := f
      intro r h
      cases h with
      | object hversion hfile hsourceRoot hsources hcontents hnames hmappings hsections =>
          have hv : IsRead v := hfields (key, v) (by simp)
          obtain ⟨_, hversion₀, hversion⟩ :=
            hversion.split_nullable (word?_of_isWord v) not_isWord_null
          obtain ⟨_, hfile₀, hfile⟩ :=
            hfile.split_nullable (string?_of_isString v) not_isString_null
          obtain ⟨_, hsourceRoot₀, hsourceRoot⟩ :=
            hsourceRoot.split_nullable (string?_of_isString v) not_isString_null
          obtain ⟨_, hsources₀, hsources⟩ :=
            hsources.split_nullable (nullables_of_isList v) not_isList_null
          obtain ⟨_, hcontents₀, hcontents⟩ :=
            hcontents.split_nullable (nullables_of_isList v) not_isList_null
          obtain ⟨_, hnames₀, hnames⟩ :=
            hnames.split_nullable (strings_of_isList v) not_isList_null
          obtain ⟨_, hmappings₀, hmappings⟩ :=
            hmappings.split_nullable (string?_of_isString v) not_isString_null
          obtain ⟨_, hsections₀, hsections⟩ :=
            hsections.split_nullable hv.sections not_isList_null
          have hbefore := ih (fun f hf => hfields f (List.mem_append_left _ hf))
            (.object hversion₀ hfile₀ hsourceRoot₀ hsources₀ hcontents₀ hnames₀ hmappings₀
              hsections₀)
          rw [setAll?_append, hbefore, Option.bind_some]
          by_cases hkey : key = "sections"
          · subst hkey
            simp only [String.reduceEq, ↓reduceIte]
              at hversion hfile hsourceRoot hsources hcontents hnames hmappings hsections
            rw [setAll?_sections, hsections, hversion, hfile, hsourceRoot, hsources, hcontents,
              hnames, hmappings]
            rfl
          · rw [setAll?_cons hkey]
            unfold setPlain?
            rw [if_neg hkey] at hsections
            split_ifs <;> simp_all [setAll?]

/-- The fields of a section are read as what they say, if the values in them are read. -/
theorem draftAll?_of_last {fields : List (String × Value)} (hfields : ∀ f ∈ fields, IsRead f.2) :
    ∀ {offset : Option Offset} {map : Option (Option Record)} {url : Option (Option String)},
      Last IsOffset (valuesOf "offset" fields) offset →
      Last (IsNullable Describes) (valuesOf "map" fields) map →
      Last (IsNullable IsString) (valuesOf "url" fields) url →
      draftAll? {} fields = some { offset, map := map.join, url := url.join } := by
  induction fields using List.reverseRecOn with
  | nil =>
      intro offset map url h₁ h₂ h₃
      rw [h₁.eq_none, h₂.eq_none, h₃.eq_none]
      rfl
  | append_singleton fields f ih =>
      obtain ⟨key, v⟩ := f
      intro offset map url hoffset hmap hurl
      have hv : IsRead v := hfields (key, v) (by simp)
      obtain ⟨_, hoffset₀, hoffset⟩ := hoffset.split
      obtain ⟨_, hmap₀, hmap⟩ := hmap.split_nullable hv.record not_describes_null
      obtain ⟨_, hurl₀, hurl⟩ := hurl.split_nullable (string?_of_isString v) not_isString_null
      have hbefore := ih (fun f hf => hfields f (List.mem_append_left _ hf)) hoffset₀ hmap₀ hurl₀
      rw [draftAll?_append, hbefore, Option.bind_some]
      by_cases hkey : key = "map"
      · subst hkey
        simp only [String.reduceEq, ↓reduceIte] at hoffset hmap hurl
        rw [draftAll?_map, hmap, hoffset, hurl]
        rfl
      · rw [draftAll?_cons hkey]
        unfold Draft.setPlain?
        rw [if_neg hkey] at hmap
        by_cases hoffsetKey : key = "offset"
        · obtain ⟨a, ha, rfl⟩ := (if_pos hoffsetKey).mp hoffset
          simp_all [draftAll?, Offset.ofJson?_of_isOffset v a ha]
        · split_ifs at hoffset hurl ⊢ <;> simp_all [draftAll?]

/-- **Every value is read as what it is.** -/
theorem isRead (v : Value) : IsRead v := by
  induction v using Value.induction with
  | harray vs ih =>
      refine ⟨nofun, nofun, fun ss h => ?_⟩
      cases h with
      | array hvs =>
          show sectionsOf? vs = some ss
          induction hvs with
          | nil => rfl
          | @cons v s vs ss hs _ ihs =>
              have hfirst := (ih v List.mem_cons_self).oneSection s hs
              have hrest := ihs fun w hw => ih w (List.mem_cons_of_mem v hw)
              rw [sectionsOf?, hfirst, hrest]
  | hobject fields ih =>
      refine ⟨fun r h => setAll?_of_describes ih h, fun s h => ?_, nofun⟩
      cases h with
      | object hoffset hmap hurl =>
          rw [sectionOf?, draftAll?_of_last ih hoffset hmap hurl]
          rfl
  | _ => exact ⟨nofun, nofun, nofun⟩

/-- **The record that an object describes is the one that it is read as.** -/
theorem ofJson?_of_describes {v : Value} {r : Record} (h : Describes v r) : ofJson? v = some r :=
  (isRead v).record r h

end Record

end SourceMap

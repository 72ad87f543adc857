import Mathlib
import SourceMap.Proofs.Flattening
import SourceMap.Proofs.Nearest

/-!
# Exact matches

An index map asks its sections one after the other where the code at an original position has gone,
and takes the first answer. So there is an answer for every place that the map lists, on the side of
the bias, and it is exact if the first section that has anything on that side has the very place
(`generatedPositionFor_listed`).
-/

set_option autoImplicit false

namespace SourceMap.LoadedMap

open Search (Within)

/-! ## What a map has to offer -/

/-- Whether a map lists a mapping into a source at a position or on the side of it that the bias
picks. -/
def Offers (m : LoadedMap) (o : OriginalLocation) (bias : Bias) : Prop :=
  ∃ listed, m.mappings .generated = .ok listed ∧ ∃ b ∈ listed, ∃ q,
    b.original = some ⟨o.source, q⟩ ∧ Within o.position bias q

/-- Whether a map lists a mapping to a location. -/
def Holds (m : LoadedMap) (o : OriginalLocation) : Prop :=
  ∃ listed, m.mappings .generated = .ok listed ∧ ∃ b ∈ listed, b.original = some o

/-- Whether a section is the first one with something to offer. -/
def FirstToOffer (o : OriginalLocation) (bias : Bias) (sections : List (Placed LoadedMap))
    (s : Placed LoadedMap) : Prop :=
  ∃ before after, sections = before ++ s :: after ∧ (∀ t ∈ before, ¬ t.map.Offers o bias) ∧
    s.map.Offers o bias

theorem FirstToOffer.mem {o : OriginalLocation} {bias : Bias} {sections : List (Placed LoadedMap)}
    {s : Placed LoadedMap} (h : FirstToOffer o bias sections s) : s ∈ sections := by
  obtain ⟨before, after, rfl, -⟩ := h
  exact List.mem_append_right _ List.mem_cons_self

theorem FirstToOffer.offers {o : OriginalLocation} {bias : Bias}
    {sections : List (Placed LoadedMap)} {s : Placed LoadedMap}
    (h : FirstToOffer o bias sections s) : s.map.Offers o bias := by
  obtain ⟨before, after, -, -, hoffers⟩ := h
  exact hoffers

/-- Whether the first section with something to offer holds the location itself, at every depth. -/
inductive ExactFirst (o : OriginalLocation) (bias : Bias) : LoadedMap → Prop
  | flat (f : FlatMap) : ExactFirst o bias (.flat f)
  | index {file : Option String} {sections : List (Placed LoadedMap)}
      {merged : Except Error View} :
      (∀ s, FirstToOffer o bias sections s → s.map.Holds o) →
      (∀ s, FirstToOffer o bias sections s → ExactFirst o bias s.map) →
      ExactFirst o bias (.index file sections merged)

/-- Whether the flat maps in a map have no root, and no source twice. -/
inductive Plain : LoadedMap → Prop
  | flat {f : FlatMap} : f.root = none → f.sources.toList.Nodup → Plain (.flat f)
  | index {file : Option String} {sections : List (Placed LoadedMap)}
      {merged : Except Error View} : (∀ s ∈ sections, s.map.Plain) →
      Plain (.index file sections merged)

/-- Whether a map answers where the code of a location has gone with a mapping that it lists on the
side of the bias, and with one at the very location if the first section to offer something has
it. -/
def Answers (m : LoadedMap) (o : OriginalLocation) (bias : Bias) (listed : List Mapping) : Prop :=
  hasSource o.source m = true ∧
    ∃ answer, m.generatedPositionFor o.source o.position bias = .ok answer ∧
      ∃ b ∈ listed, answer.IsAt b.generated ∧
        (∃ q, b.original = some ⟨o.source, q⟩ ∧ Within o.position bias q) ∧
        (m.ExactFirst o bias → m.Holds o → b.original = some o)

/-! ## Flat maps -/

section

variable {f : FlatMap} {v : View}

/-- A flat map has the sources that its view finds a slot for. -/
theorem hasSource_flat (hv : f.view = .ok v) {source : String} {slot : Nat}
    (hslot : v.sourceSlot? source = some slot) : hasSource source (.flat f) = true := by
  obtain ⟨t, -, rfl⟩ := map_eq_ok_iff.mp hv
  have hindex : f.sources.indexOf? (SourceRoot.relativize f.root source) = some slot := hslot
  rw [hasSource, FlatMap.hasSource, StringTable.contains, hindex]
  rfl

/-- Without a root a slot that is found has the name that it is looked up by. -/
theorem Plain.sourceAt_eq (hplain : Plain (.flat f)) (hv : f.view = .ok v) {source : String}
    {slot : Nat} (hslot : v.sourceSlot? source = some slot) : v.sourceAt slot = source := by
  cases hplain with
  | flat hroot hnodup =>
      obtain ⟨t, -, rfl⟩ := map_eq_ok_iff.mp hv
      simp only [View.sourceSlot?, hroot, SourceRoot.relativize] at hslot
      simp only [View.sourceAt, hroot, SourceRoot.resolve, StringTable.get?_of_indexOf? hslot,
        Option.getD_some]

/-- Without a root and without repetitions every source is looked up in its slot. -/
theorem Plain.knows (hplain : Plain (.flat f)) (hv : f.view = .ok v) (source : String) :
    v.Knows source := by
  cases hplain with
  | flat hroot hnodup =>
      have hfull : f.sourceNames = f.sources.toList := by
        rw [FlatMap.sourceNames, hroot]
        exact List.map_id _
      intro slot hlt hsource
      obtain ⟨name, hname, -, hslot⟩ := FlatMap.exists_name hv hlt
      have hknows := FlatMap.knows_of_relativize hv (by rwa [hfull]) hname (by rw [hroot]; rfl)
      rw [← hslot, hsource] at hknows
      exact hknows slot hlt hsource

/-- A view finds nothing where it lists nothing on the side of the bias. -/
theorem Plain.empty_flat (hplain : Plain (.flat f)) (hv : f.view = .ok v) {o : OriginalLocation}
    {bias : Bias} (hoffers : ¬ Offers (.flat f) o bias) :
    (LoadedMap.flat f).generatedPositionFor o.source o.position bias = .ok {} := by
  rw [generatedPositionFor_flat hv]
  congr 1
  cases hslot : v.sourceSlot? o.source with
  | none => rw [View.generatedPositionFor, hslot]
  | some slot =>
      apply View.generatedPositionFor_eq_empty hslot
      intro e he q hplace hwithin
      -- an entry on that side would be listed
      refine hoffers ⟨_, mappings_flat hv .generated, v.mapping e, List.mem_map_of_mem he, q, ?_,
        hwithin⟩
      have hname := hplain.sourceAt_eq hv hslot
      rw [View.mapping, hplace, Option.map_some, hname]

/-- A flat map without a root answers for the places that it lists. -/
theorem Plain.answers_flat (hplain : Plain (.flat f)) (hsound : Sound (.flat f))
    (hv : f.view = .ok v) {o : OriginalLocation} {bias : Bias}
    (hoffers : Offers (.flat f) o bias) : Answers (.flat f) o bias (v.mappings .generated) := by
  have hknows := hplain.knows hv o.source
  have hsound' : v.Sound := hsound.view hv
  have hlist := mappings_flat hv .generated
  have hanswer := generatedPositionFor_flat hv o.source o.position bias
  have hsource (a : Mapping) (ha : a ∈ v.mappings .generated) {q : Position}
      (ho : a.original = some ⟨o.source, q⟩) : hasSource o.source (.flat f) = true := by
    obtain ⟨e, he, slot, -, hplace, hname⟩ := View.exists_entry ha ho
    exact hasSource_flat hv (hknows slot (hsound'.slot_lt he hplace) hname)
  by_cases hholds : Holds (.flat f) o
  · obtain ⟨listed, hlisted, a, ha, ho⟩ := hholds
    rw [hlist] at hlisted
    cases hlisted
    obtain ⟨b, hb, hbo, hat⟩ := View.exists_exact hsound' ha ho hknows bias
    exact ⟨hsource a ha ho, _, hanswer, b, hb, hat, ⟨o.position, hbo, .refl _ bias⟩,
      fun _ _ => hbo⟩
  · obtain ⟨listed, hlisted, a, ha, q, ho, hwithin⟩ := hoffers
    rw [hlist] at hlisted
    cases hlisted
    obtain ⟨b, hb, q', hbo, hside, -, hat⟩ := View.exists_nearest hsound' hknows ha ho hwithin
    exact ⟨hsource a ha ho, _, hanswer, b, hb, hat, ⟨q', hbo, hside⟩,
      fun _ h => absurd h hholds⟩

end

/-! ## Sections asked in order -/

/-- A map has the sources that one of its sections has. -/
theorem anyHasSource_of_mem {source : String} {s : Placed LoadedMap}
    {sections : List (Placed LoadedMap)} (hs : s ∈ sections) (h : hasSource source s.map = true) :
    anyHasSource source sections = true := by
  induction sections with
  | nil => cases hs
  | cons t sections ih =>
      obtain ⟨offset, m⟩ := t
      rw [anyHasSource, Bool.or_eq_true]
      rcases List.mem_cons.mp hs with rfl | hs
      · exact Or.inl h
      · exact Or.inr (ih hs)

section

variable {source : String} {p : Position} {bias : Bias}

/-- Sections without the source, or without an answer, are passed over. -/
theorem generatedPositionIn_append {before : List (Placed LoadedMap)}
    (h : ∀ t ∈ before, hasSource source t.map = true →
      t.map.generatedPositionFor source p bias = .ok {})
    (rest : List (Placed LoadedMap)) :
    ∀ index : Nat, generatedPositionIn source p bias index (before ++ rest) =
      generatedPositionIn source p bias (index + before.length) rest := by
  induction before with
  | nil => exact fun index => rfl
  | cons t before ih =>
      intro index
      obtain ⟨offset, m⟩ := t
      have hrest := ih (fun t ht => h t (List.mem_cons_of_mem _ ht)) (index + 1)
      have hlength : index + (before.length + 1) = index + 1 + before.length := by omega
      rw [List.cons_append, generatedPositionIn, List.length_cons, hlength, ← hrest]
      by_cases hsource : hasSource source m = true
      · have hhead : m.generatedPositionFor source p bias = .ok {} := h _ List.mem_cons_self hsource
        rw [if_pos hsource, hhead]
      · rw [if_neg hsource]

/-- The answer of a section is that of the map, in the coordinates of the file. -/
theorem generatedPositionIn_cons {s : Placed LoadedMap} {found : GeneratedPosition}
    {g g' : Position} (hsource : hasSource source s.map = true)
    (hfound : s.map.generatedPositionFor source p bias = .ok found) (hat : found.IsAt g)
    (hshift : Position.ShiftedTo s.offset g g') (index : Nat) (rest : List (Placed LoadedMap)) :
    ∃ answer, generatedPositionIn source p bias index (s :: rest) = .ok answer ∧
      answer.IsAt g' := by
  obtain ⟨offset, m⟩ := s
  have hglobal : offset.toGlobal? g = some g' := Position.toGlobal?_eq_some_iff.mpr hshift
  obtain ⟨hline, hcolumn⟩ := hat
  rw [generatedPositionIn, if_pos hsource, hfound]
  dsimp only
  rw [hline, hcolumn]
  dsimp only
  rw [toGlobalAnswer, hglobal]
  exact ⟨_, rfl, rfl, rfl⟩

end

/-! ## Index maps -/

/-- Among sections of which some have something to offer there is a first one. -/
theorem exists_firstToOffer {o : OriginalLocation} {bias : Bias}
    {sections : List (Placed LoadedMap)} {s : Placed LoadedMap} (hs : s ∈ sections)
    (h : s.map.Offers o bias) : ∃ t, FirstToOffer o bias sections t := by
  induction sections with
  | nil => cases hs
  | cons t sections ih =>
      by_cases ht : t.map.Offers o bias
      · exact ⟨t, [], sections, rfl, fun _ h => absurd h List.not_mem_nil, ht⟩
      · rcases List.mem_cons.mp hs with rfl | hs
        · exact absurd h ht
        · obtain ⟨t', before, after, hsplit, hbefore, hoffers⟩ := ih hs
          refine ⟨t', t :: before, after, by rw [hsplit, List.cons_append], ?_, hoffers⟩
          intro u hu
          rcases List.mem_cons.mp hu with rfl | hu
          · exact ht
          · exact hbefore u hu

section

variable {r : Record} {m : LoadedMap} {sections : List (Placed LoadedMap)}
  {listed : List Mapping} {o : OriginalLocation} {bias : Bias}

/-- An index map has to offer what its sections have. -/
theorem offers_iff (h : ofRecord r = .ok m) (hsections : m.sections? = some sections)
    (hlisted : m.mappings .generated = .ok listed) :
    m.Offers o bias ↔ ∃ s ∈ sections, s.map.Offers o bias := by
  constructor
  · rintro ⟨listed', hlisted', a, ha, q, ho, hwithin⟩
    obtain ⟨i, hi, ms, part, hms, hshift, hpart, -⟩ :=
      exists_section_of_listed h hsections hlisted' ha
    obtain ⟨b, hb, -, horiginal, -⟩ := exists_of_forall₂_right hshift a hpart
    exact ⟨sections[i], List.getElem_mem hi, ms, hms, b, hb, q, horiginal ▸ ho, hwithin⟩
  · rintro ⟨s, hs, ms', hms', b, hb, q, ho, hwithin⟩
    obtain ⟨ms, part, hms, hshift, hlists⟩ := exists_part_of_section h hsections hlisted hs
    rw [hms] at hms'
    cases hms'
    obtain ⟨a, ha, -, horiginal, -⟩ := exists_of_forall₂ hshift b hb
    exact ⟨listed, hlisted, a, hlists a ha, q, horiginal.trans ho, hwithin⟩

end

/-- An index map answers as the first of its sections does that has something to offer. -/
theorem Answers.index {file : Option String} {sections : List (Placed LoadedMap)}
    {merged : Except Error View} {o : OriginalLocation} {bias : Bias} {s : Placed LoadedMap}
    {ms part listed : List Mapping} (hfirst : FirstToOffer o bias sections s)
    (hnone : ∀ t ∈ sections, ¬ t.map.Offers o bias →
      t.map.generatedPositionFor o.source o.position bias = .ok {})
    (hanswers : s.map.Answers o bias ms)
    (hshift : List.Forall₂ (Mapping.ShiftedTo s.offset) ms part) (hlists : ∀ c ∈ part, c ∈ listed) :
    Answers (.index file sections merged) o bias listed := by
  obtain ⟨before, after, rfl, hbefore, -⟩ := id hfirst
  obtain ⟨hsource, found, hfound, b, hb, hat, ⟨q, hbo, hside⟩, hexact⟩ := hanswers
  obtain ⟨a, ha, hposition, horiginal, -⟩ := exists_of_forall₂ hshift b hb
  have hskip : ∀ t ∈ before, hasSource o.source t.map = true →
      t.map.generatedPositionFor o.source o.position bias = .ok {} :=
    fun t ht _ => hnone t (List.mem_append_left _ ht) (hbefore t ht)
  obtain ⟨answer, hanswer, hat'⟩ :=
    generatedPositionIn_cons hsource hfound hat hposition (0 + before.length) after
  refine ⟨?_, answer, ?_, a, hlists a ha, hat', ⟨q, horiginal.trans hbo, hside⟩, ?_⟩
  · rw [hasSource]
    exact anyHasSource_of_mem (List.mem_append_right _ List.mem_cons_self) hsource
  · rw [generatedPositionFor, generatedPositionIn_append hskip, hanswer]
  · -- this section holds the location, and its answer is exact
    intro hexactFirst _
    cases hexactFirst with
    | index hholds hdeep =>
        rw [horiginal]
        exact hexact (hdeep s hfirst) (hholds s hfirst)

/-- A map without roots answers for a place just when it has something to offer. -/
theorem Plain.answers {r : Record} : ∀ {m : LoadedMap}, ofRecord r = .ok m → m.Plain →
    ∀ {listed : List Mapping}, m.mappings .generated = .ok listed →
      ∀ (o : OriginalLocation) (bias : Bias),
        (m.Offers o bias → m.Answers o bias listed) ∧
          (¬ m.Offers o bias → m.generatedPositionFor o.source o.position bias = .ok {}) := by
  induction r using Record.induction with
  | h r ih =>
      intro m hm hplain listed hlisted o bias
      rcases ofRecord_cases hm with ⟨f, r', hf, rfl⟩ | ⟨ss, sections, hss, hplaced, rfl⟩
      · obtain ⟨v, hv, rfl⟩ := map_eq_ok_iff.mp hlisted
        have hview : f.view = .ok v := hv
        exact ⟨hplain.answers_flat (.ofFlat hf) hview, hplain.empty_flat hview⟩
      · have hoffers : (ofSections r.file sections).Offers o bias ↔
            ∃ s ∈ sections, s.map.Offers o bias := offers_iff hm rfl hlisted
        have hsections : ∀ t ∈ sections, ∀ {ms}, t.map.mappings .generated = .ok ms →
            (t.map.Offers o bias → t.map.Answers o bias ms) ∧ (¬ t.map.Offers o bias →
              t.map.generatedPositionFor o.source o.position bias = .ok {}) := by
          intro t ht ms hms
          obtain ⟨s, hs, hplace⟩ :=
            exists_of_forall₂_right (places_of_placeAll hplaced) t ht
          obtain ⟨r', hr', hmap⟩ := hplace.map
          cases hplain with
          | index hplain => exact ih ss hss s hs r' hr' hmap (hplain t ht) hms o bias
        have hnone : ∀ t ∈ sections, ¬ t.map.Offers o bias →
            t.map.generatedPositionFor o.source o.position bias = .ok {} := by
          intro t ht
          obtain ⟨ms, part, hms, -⟩ := exists_part_of_section hm rfl hlisted ht
          exact (hsections t ht hms).2
        constructor
        · intro h
          obtain ⟨t, ht, htoffers⟩ := hoffers.mp h
          obtain ⟨s, hfirst⟩ := exists_firstToOffer ht htoffers
          obtain ⟨ms, part, hms, hshift, hlists⟩ :=
            exists_part_of_section hm rfl hlisted hfirst.mem
          exact .index hfirst hnone ((hsections s hfirst.mem hms).1 hfirst.offers) hshift hlists
        · intro h
          have hall : ∀ t ∈ sections, hasSource o.source t.map = true →
              t.map.generatedPositionFor o.source o.position bias = .ok {} :=
            fun t ht _ => hnone t ht fun hsome => h (hoffers.mpr ⟨t, ht, hsome⟩)
          have hpassed := generatedPositionIn_append hall [] 0
          rw [List.append_nil] at hpassed
          rw [ofSections, generatedPositionFor, hpassed, generatedPositionIn]

/-- **There is an answer for every place that a map lists.** In a map without roots the place of
each listed mapping leads to a listed mapping of the same source on the side of the bias, and to one
at the very place if the first section that has anything on that side has the place itself, at every
depth. A flat map is its own first section. This is about string tables whose slots have numbers of
32 bits. -/
theorem generatedPositionFor_listed {r : Record} {m : LoadedMap} (h : ofRecord r = .ok m)
    (hplain : m.Plain) {listed : List Mapping} (hlisted : m.mappings .generated = .ok listed)
    {a : Mapping} (ha : a ∈ listed) {o : OriginalLocation} (ho : a.original = some o)
    (bias : Bias) : ∃ answer, m.generatedPositionFor o.source o.position bias = .ok answer ∧
      ∃ b ∈ listed, answer.IsAt b.generated ∧
        (∃ q, b.original = some ⟨o.source, q⟩ ∧ Within o.position bias q) ∧
        (m.ExactFirst o bias → b.original = some o) := by
  have hoffers : m.Offers o bias := ⟨listed, hlisted, a, ha, o.position, ho, .refl _ bias⟩
  obtain ⟨-, answer, hanswer, b, hb, hat, hside, hexact⟩ :=
    (hplain.answers h hlisted o bias).1 hoffers
  have hholds : m.Holds o := ⟨listed, hlisted, a, ha, ho⟩
  exact ⟨answer, hanswer, b, hb, hat, hside, fun hfirst => hexact hfirst hholds⟩

/-- A flat map with one source and no root. -/
theorem Plain.ofSingle {source text : String} {f : FlatMap}
    (h : ofRecord { version := some 3, sources := some [some source], mappings := some text } =
      .ok (.flat f)) : Plain (.flat f) := by
  cases h
  refine .flat rfl ?_
  show (StringTable.ofList [_] true).toList.Nodup
  rw [StringTable.toList_ofList]
  exact List.nodup_singleton _

/-- The first section has the source too, but behind the place. -/
theorem generatedPositionFor_listed_behind :
    let part (text : String) : Record :=
      { version := some 3, sources := some [some "a.js"], mappings := some text }
    let outer : Record :=
      { version := some 3
        sections := some
          [{ offset := ⟨0, 0⟩, map := some (part "AAKA") },
            { offset := ⟨1, 0⟩, map := some (part "AAIA") }] }
    let o : OriginalLocation := ⟨"a.js", ⟨5, 0⟩⟩
    let listed : List Mapping :=
      [{ generated := ⟨1, 0⟩, original := some ⟨"a.js", ⟨6, 0⟩⟩ },
        { generated := ⟨2, 0⟩, original := some o }]
    ∃ m, ofRecord outer = .ok m ∧ m.Plain ∧ m.mappings .generated = .ok listed ∧
      m.ExactFirst o .greatestLowerBound ∧ ∃ answer,
        m.generatedPositionFor "a.js" ⟨5, 0⟩ .greatestLowerBound = .ok answer ∧
          ∃ b ∈ listed, answer.IsAt b.generated ∧ b.original = some o := by
  intro part outer o listed
  obtain ⟨f, hf⟩ : ∃ f, ofRecord (part "AAKA") = .ok (.flat f) := ⟨_, rfl⟩
  obtain ⟨g, hg⟩ : ∃ g, ofRecord (part "AAIA") = .ok (.flat g) := ⟨_, rfl⟩
  have hfirst : (ofRecord (part "AAKA")).bind (fun m => m.mappings .generated) =
      .ok [{ generated := ⟨1, 0⟩, original := some ⟨"a.js", ⟨6, 0⟩⟩ }] := by
    cbv
  have hsecond : (ofRecord (part "AAIA")).bind (fun m => m.mappings .generated) =
      .ok [{ generated := ⟨1, 0⟩, original := some o }] := by
    cbv
  have hlisted : (ofRecord outer).bind (fun m => m.mappings .generated) = .ok listed := by
    cbv
  rw [hf] at hfirst
  rw [hg] at hsecond
  let s : Placed LoadedMap := { offset := ⟨1, 0⟩, map := .flat f }
  let t : Placed LoadedMap := { offset := ⟨2, 0⟩, map := .flat g }
  obtain ⟨m, hm, hshape⟩ : ∃ m, ofRecord outer = .ok m ∧ m = ofSections none [s, t] := by
    cases hf
    cases hg
    exact ⟨_, rfl, rfl⟩
  rw [hm] at hlisted
  have hplain : m.Plain := by
    rw [hshape]
    refine .index ?_
    intro u hu
    rcases List.mem_pair.mp hu with rfl | rfl
    · exact .ofSingle hf
    · exact .ofSingle hg
  have hholds : t.map.Holds o := ⟨_, hsecond, _, List.mem_singleton_self _, rfl⟩
  have hbehind : ¬ s.map.Offers o .greatestLowerBound := by
    rintro ⟨ms, hms, b, hb, q, hq, hwithin⟩
    have hms' : ms = _ := Except.ok.inj (hms.symm.trans hfirst)
    rw [hms'] at hb
    rw [List.mem_singleton.mp hb] at hq
    cases hq
    have hle : (compare (Position.mk 6 0) (Position.mk 5 0)).isLE := hwithin
    exact absurd hle (by decide)
  have hsecondFirst (u : Placed LoadedMap)
      (hu : FirstToOffer o .greatestLowerBound [s, t] u) : u = t := by
    rcases List.mem_pair.mp hu.mem with rfl | rfl
    · exact absurd hu.offers hbehind
    · rfl
  have hexact : m.ExactFirst o .greatestLowerBound := by
    rw [hshape]
    refine .index ?_ ?_
    · intro u hu
      rw [hsecondFirst u hu]
      exact hholds
    · intro u hu
      rw [hsecondFirst u hu]
      exact .flat g
  obtain ⟨answer, hanswer, b, hb, hat, -, hb'⟩ := generatedPositionFor_listed hm hplain hlisted
    (a := { generated := ⟨2, 0⟩, original := some o }) (by simp [listed]) rfl .greatestLowerBound
  exact ⟨m, hm, hplain, hlisted, hexact, answer, hanswer, b, hb, hat, hb' hexact⟩

/-- A section that has the source near the place, but not at it, hides the one that has the very
place. -/
theorem generatedPositionFor_hidden :
    let part (text : String) : Record :=
      { version := some 3, sources := some [some "a.js"], mappings := some text }
    let outer : Record :=
      { version := some 3
        sections := some
          [{ offset := ⟨0, 0⟩, map := some (part "AAAA") },
            { offset := ⟨1, 0⟩, map := some (part "AAIA") }] }
    ∃ m, ofRecord outer = .ok m ∧ m.Plain ∧
      m.mappings .generated = .ok
        [{ generated := ⟨1, 0⟩, original := some ⟨"a.js", ⟨1, 0⟩⟩ },
          { generated := ⟨2, 0⟩, original := some ⟨"a.js", ⟨5, 0⟩⟩ }] ∧
      m.generatedPositionFor "a.js" ⟨5, 0⟩ .greatestLowerBound =
        .ok { line := some 1, column := some 0 } := by
  intro part outer
  have hlisted : (ofRecord outer).bind (fun m => m.mappings .generated) = .ok
      [{ generated := ⟨1, 0⟩, original := some ⟨"a.js", ⟨1, 0⟩⟩ },
        { generated := ⟨2, 0⟩, original := some ⟨"a.js", ⟨5, 0⟩⟩ }] := by
    cbv
  have hanswer : (ofRecord outer).bind (fun m =>
      m.generatedPositionFor "a.js" ⟨5, 0⟩ .greatestLowerBound) =
        .ok { line := some 1, column := some 0 } := by
    cbv
  obtain ⟨f, hf⟩ : ∃ f, ofRecord (part "AAAA") = .ok (.flat f) := ⟨_, rfl⟩
  obtain ⟨g, hg⟩ : ∃ g, ofRecord (part "AAIA") = .ok (.flat g) := ⟨_, rfl⟩
  obtain ⟨m, hm, hshape⟩ : ∃ m, ofRecord outer = .ok m ∧ m = ofSections none
      [{ offset := ⟨1, 0⟩, map := .flat f }, { offset := ⟨2, 0⟩, map := .flat g }] := by
    cases hf
    cases hg
    exact ⟨_, rfl, rfl⟩
  rw [hm] at hlisted hanswer
  refine ⟨m, hm, ?_, hlisted, hanswer⟩
  rw [hshape]
  refine .index ?_
  intro s hs
  rcases List.mem_pair.mp hs with rfl | rfl
  · exact .ofSingle hf
  · exact .ofSingle hg

end SourceMap.LoadedMap

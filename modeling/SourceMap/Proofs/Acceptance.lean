import Mathlib
import SourceMap.Proofs.Covering

/-!
# Records that can be loaded

A record without sections can be loaded if it is of the right version and has contents for all of
its sources or none at all. A record with sections can be loaded if it is of the right version and
each of its sections passes five checks, one of which is that the map of the section can be loaded
(`Record.WellFormed`). Of any other record the first check that fails gives the error
(`Record.Refused`). Both are stated of records alone, and loading agrees with them
(`LoadedMap.ofRecord_iff_wellFormed`).

A map that is loaded has its sections in the order of their offsets, whose lines count from 1, at
every depth (`LoadedMap.Ordered`).
-/

set_option autoImplicit false

namespace SourceMap

/-! ## Well-formed records -/

namespace Record

/-- Whether all sections of a list pass their checks, when their maps may be the records that are
`accepted`. -/
inductive Placeable (accepted : Record → Prop) : List (Section Record) → Prop
  | nil : Placeable accepted []
  | cons {s : Section Record} {ss : List (Section Record)} {r : Record} : s.url = none →
      (∀ t ∈ ss, (compare s.offset t.offset).isLE) → s.map = some r → accepted r →
      s.offset.line.toNat < UInt32.size - 1 → Placeable accepted ss → Placeable accepted (s :: ss)

/-- Whether a record can be loaded. -/
inductive WellFormed : Record → Prop
  | flat {r : Record} : r.version = some 3 → r.sections = none →
      (∀ contents, r.sourcesContent = some contents →
        contents.length = (r.sources.getD []).length) → WellFormed r
  | index {r : Record} {ss : List (Section Record)} : r.version = some 3 → r.sections = some ss →
      Placeable WellFormed ss → WellFormed r

/-- Where the last of some sections starts, or `start` if there is none. -/
def lastOffset (start : Offset) (ss : List (Section Record)) : Offset :=
  (ss.getLast?.map Section.offset).getD start

/-- Whether a section passes the checks that come before those of its map, when the section before
it starts at `last`. -/
def InPlace (last : Offset) (s : Section Record) : Prop :=
  s.url = none ∧ (compare last s.offset).isLE

/-- What is wrong with the section at an index apart from its map, by the first of the checks that
fails, when the section before it starts at `last`. -/
inductive Fault (accepted : Record → Prop) (index : Nat) (last : Offset) (s : Section Record) :
    Error → Prop
  | byUrl : s.url ≠ none → Fault accepted index last s (.sectionByUrl index)
  | unordered : s.url = none → compare s.offset last = .lt →
      Fault accepted index last s .unorderedSections
  | withoutMap : InPlace last s → s.map = none →
      Fault accepted index last s (.sectionWithoutMap index)
  | line {r : Record} : InPlace last s → s.map = some r → accepted r →
      s.offset.line.toNat = UInt32.size - 1 →
      Fault accepted index last s (.sectionOffsetOutOfRange index)

/-- Why a record cannot be loaded. Of the sections the first that does not pass all checks counts.
-/
inductive Refused : Record → Error → Prop
  | version {r : Record} : r.version ≠ some 3 → Refused r (.unsupportedVersion r.version)
  | contents {r : Record} {contents : List (Option String)} : r.version = some 3 →
      r.sections = none → r.sourcesContent = some contents →
      contents.length ≠ (r.sources.getD []).length →
      Refused r (.contentsMismatch (r.sources.getD []).length contents.length)
  | atSection {r : Record} {before after : List (Section Record)} {s : Section Record}
      {e : Error} : r.version = some 3 → r.sections = some (before ++ s :: after) →
      Placeable WellFormed before →
      Fault WellFormed before.length (lastOffset .zero before) s e → Refused r e
  | inMap {r r' : Record} {before after : List (Section Record)} {s : Section Record}
      {e : Error} : r.version = some 3 → r.sections = some (before ++ s :: after) →
      Placeable WellFormed before → InPlace (lastOffset .zero before) s → s.map = some r' →
      Refused r' e → Refused r (.inSection before.length e)

/-! ### Sections one by one -/

variable {p q : Record → Prop} {s : Section Record} {ss : List (Section Record)}

theorem Placeable.imp (h : Placeable p ss) :
    (∀ s ∈ ss, ∀ r, s.map = some r → p r → q r) → Placeable q ss := by
  induction h with
  | nil => exact fun _ => .nil
  | cons hurl horder hmap hp hline _ ih =>
      intro hpq
      refine .cons hurl horder hmap (hpq _ List.mem_cons_self _ hmap hp) hline (ih ?_)
      exact fun t ht => hpq t (List.mem_cons_of_mem _ ht)

/-- Of the maps of the sections only it matters which are accepted. -/
theorem Placeable.congr (h : ∀ s ∈ ss, ∀ r, s.map = some r → (p r ↔ q r)) :
    Placeable p ss ↔ Placeable q ss :=
  ⟨fun hp => hp.imp fun s hs r hr => (h s hs r hr).mp,
    fun hq => hq.imp fun s hs r hr => (h s hs r hr).mpr⟩

theorem Fault.imp {index : Nat} {last : Offset} {e : Error} (h : Fault p index last s e)
    (hpq : ∀ r, s.map = some r → p r → q r) : Fault q index last s e := by
  cases h with
  | byUrl hurl => exact .byUrl hurl
  | unordered hurl hlt => exact .unordered hurl hlt
  | withoutMap hplace hnone => exact .withoutMap hplace hnone
  | line hplace hmap hp hline => exact .line hplace hmap (hpq _ hmap hp) hline

theorem Fault.congr {index : Nat} {last : Offset} {e : Error}
    (h : ∀ r, s.map = some r → (p r ↔ q r)) : Fault p index last s e ↔ Fault q index last s e :=
  ⟨fun hp => hp.imp fun r hr => (h r hr).mp, fun hq => hq.imp fun r hr => (h r hr).mpr⟩

theorem placeable_cons_iff : Placeable p (s :: ss) ↔ s.url = none ∧ (∃ r, s.map = some r ∧ p r) ∧
    s.offset.line.toNat < UInt32.size - 1 ∧ (∀ t ∈ ss, (compare s.offset t.offset).isLE) ∧
    Placeable p ss := by
  constructor
  · rintro (_ | ⟨hurl, horder, hmap, hp, hline, hrest⟩)
    exact ⟨hurl, ⟨_, hmap, hp⟩, hline, horder, hrest⟩
  · rintro ⟨hurl, ⟨r, hmap, hp⟩, hline, horder, hrest⟩
    exact .cons hurl horder hmap hp hline hrest

theorem lastOffset_cons (start : Offset) (s : Section Record) (ss : List (Section Record)) :
    lastOffset start (s :: ss) = lastOffset s.offset ss := by
  cases ss with
  | nil => rfl
  | cons t ss => rfl

/-! ### Records of each kind -/

variable {r : Record} {e : Error}

theorem wellFormed_flat_iff (hversion : r.version = some 3) (hsections : r.sections = none) :
    r.WellFormed ↔ ∀ contents, r.sourcesContent = some contents →
      contents.length = (r.sources.getD []).length := by
  constructor
  · rintro (⟨-, -, haligned⟩ | ⟨-, hsome, -⟩)
    · exact haligned
    · rw [hsections] at hsome
      cases hsome
  · exact fun haligned => .flat hversion hsections haligned

theorem wellFormed_index_iff (hversion : r.version = some 3) (hsections : r.sections = some ss) :
    r.WellFormed ↔ Placeable WellFormed ss := by
  constructor
  · rintro (⟨-, hnone, -⟩ | ⟨-, hsome, hplaceable⟩)
    · rw [hsections] at hnone
      cases hnone
    · rw [hsections] at hsome
      cases hsome
      exact hplaceable
  · exact fun hplaceable => .index hversion hsections hplaceable

theorem refused_flat_iff (hversion : r.version = some 3) (hsections : r.sections = none) :
    r.Refused e ↔ ∃ contents, r.sourcesContent = some contents ∧
      contents.length ≠ (r.sources.getD []).length ∧
      e = .contentsMismatch (r.sources.getD []).length contents.length := by
  constructor
  · intro h
    cases h with
    | version hother => exact absurd hversion hother
    | contents _ _ hcontents hne => exact ⟨_, hcontents, hne, rfl⟩
    | atSection _ hsome =>
        rw [hsections] at hsome
        cases hsome
    | inMap _ hsome =>
        rw [hsections] at hsome
        cases hsome
  · rintro ⟨contents, hcontents, hne, rfl⟩
    exact .contents hversion hsections hcontents hne

theorem refused_index_iff (hversion : r.version = some 3) (hsections : r.sections = some ss) :
    r.Refused e ↔ ∃ before s after, ss = before ++ s :: after ∧ Placeable WellFormed before ∧
      (Fault WellFormed before.length (lastOffset .zero before) s e ∨
        ∃ r' e', InPlace (lastOffset .zero before) s ∧ s.map = some r' ∧ r'.Refused e' ∧
          e = .inSection before.length e') := by
  constructor
  · intro h
    cases h with
    | version hother => exact absurd hversion hother
    | contents _ hnone =>
        rw [hsections] at hnone
        cases hnone
    | atSection _ hsome hbefore hfault =>
        rw [hsections] at hsome
        exact ⟨_, _, _, Option.some.inj hsome, hbefore, Or.inl hfault⟩
    | inMap _ hsome hbefore hplace hmap hrefused =>
        rw [hsections] at hsome
        exact ⟨_, _, _, Option.some.inj hsome, hbefore,
          Or.inr ⟨_, _, hplace, hmap, hrefused, rfl⟩⟩
  · rintro ⟨before, s, after, rfl, hbefore, hfault | ⟨r', e', hplace, hmap, hrefused, rfl⟩⟩
    · exact .atSection hversion hsections hbefore hfault
    · exact .inMap hversion hsections hbefore hplace hmap hrefused

end Record

namespace LoadedMap

open Record (Placeable WellFormed InPlace Fault Refused lastOffset)

/-! ## Placing sections -/

/-- Whether a record is loaded. -/
def Loads (r : Record) : Prop :=
  ∃ m, ofRecord r = .ok m

/-- The section at an index, when the section before it starts at `last`. -/
def place (index : Nat) (last : Offset) (s : Section Record) : Except Error (Placed LoadedMap) :=
  if s.url.isSome then .error (.sectionByUrl index)
  else if (compare s.offset last).isLT then .error .unorderedSections
  else match s.map with
    | none => .error (.sectionWithoutMap index)
    | some r =>
      match ofRecord r with
      | .error e => .error (.inSection index e)
      | .ok map =>
        match Coordinate.add? s.offset.line 1 with
        | none => .error (.sectionOffsetOutOfRange index)
        | some line => .ok { offset := { line, column := s.offset.column }, map }

/-- Sections are placed one after the other, each behind the one before it. -/
theorem placeAll_cons_eq (index : Nat) (last : Offset) (s : Section Record)
    (ss : List (Section Record)) : placeAll index last (s :: ss) =
      place index last s >>= fun placed =>
        (placeAll (index + 1) s.offset ss).map (placed :: ·) := by
  obtain ⟨offset, _ | r, url⟩ := s
  · rw [placeAll, place]
    split
    · rfl
    split
    · rfl
    · rfl
  · rw [placeAll, place]
    dsimp only
    split
    · rfl
    split
    · rfl
    cases ofRecord r with
    | error e => rfl
    | ok m =>
        cases Coordinate.add? offset.line 1 with
        | none => rfl
        | some line =>
            dsimp only
            rw [ok_bind]
            cases placeAll (index + 1) offset ss <;> rfl

/-- A section that is not before the one in front of it has to pass the other checks. -/
theorem not_isLT_iff {o o' : Offset} : ¬ (compare o o').isLT ↔ (compare o' o).isLE := by
  have hswap : compare o' o = (compare o o').swap := Std.OrientedCmp.eq_swap
  rw [hswap]
  cases compare o o' <;> decide

/-- The line of an offset counts from 1 unless it is the largest number there is. -/
theorem add?_one_eq_none_iff {line : UInt32} :
    Coordinate.add? line 1 = none ↔ line.toNat = UInt32.size - 1 := by
  have hbound := line.toNat_lt_size
  have hsize := Coordinate.size_eq
  have hone : (1 : UInt32).toNat = 1 := rfl
  cases hadd : Coordinate.add? line 1 with
  | none =>
      refine ⟨fun _ => ?_, fun _ => rfl⟩
      by_contra hne
      -- the next number is a word, so it would have been found
      have hsome : Coordinate.add? line 1 = some (line + 1) := by
        rw [Coordinate.add?_eq_some_iff, UInt32.toNat_add, hone]
        omega
      rw [hadd] at hsome
      cases hsome
  | some w =>
      rw [Coordinate.add?_eq_some_iff, hone] at hadd
      have hw := w.toNat_lt_size
      simp only [reduceCtorEq, false_iff]
      omega

variable {index : Nat} {last : Offset} {s : Section Record} {ss : List (Section Record)}
  {placed : Placed LoadedMap} {e : Error}

/-- A section that is in place is what its map makes of it. -/
theorem place_of_inPlace (h : InPlace last s) : place index last s =
    match s.map with
    | none => .error (.sectionWithoutMap index)
    | some r =>
      match ofRecord r with
      | .error e => .error (.inSection index e)
      | .ok map =>
        match Coordinate.add? s.offset.line 1 with
        | none => .error (.sectionOffsetOutOfRange index)
        | some line => .ok { offset := { line, column := s.offset.column }, map } := by
  have hurl : ¬ s.url.isSome := by simp [h.1]
  rw [place, if_neg hurl, if_neg (not_isLT_iff.mpr h.2)]

/-- Before its map is looked at, a section is refused by address or for its order. -/
theorem place_of_not_inPlace (index : Nat) (h : ¬ InPlace last s) :
    ∃ e, place index last s = .error e ∧ Fault Loads index last s e := by
  by_cases hurl : s.url.isSome
  · have hne : s.url ≠ none := Option.isSome_iff_ne_none.mp hurl
    exact ⟨_, by rw [place, if_pos hurl], .byUrl hne⟩
  · have hnone : s.url = none := by simpa using hurl
    have hlt : (compare s.offset last).isLT := by
      by_contra hlt
      exact h ⟨hnone, not_isLT_iff.mp hlt⟩
    exact ⟨_, by rw [place, if_neg hurl, if_pos hlt], .unordered hnone (by simpa using hlt)⟩

/-- A section is placed if it passes all checks. -/
theorem exists_place_iff : (∃ placed, place index last s = .ok placed) ↔ InPlace last s ∧
    (∃ r, s.map = some r ∧ Loads r) ∧ s.offset.line.toNat < UInt32.size - 1 := by
  by_cases hplace : InPlace last s
  · rw [place_of_inPlace hplace]
    cases hmap : s.map with
    | none => simp
    | some r =>
        cases hr : ofRecord r with
        | error e => simp [Loads, hr]
        | ok m =>
            have hbound := s.offset.line.toNat_lt_size
            have hline : Coordinate.add? s.offset.line 1 = none ↔
                s.offset.line.toNat = UInt32.size - 1 := add?_one_eq_none_iff
            cases hadd : Coordinate.add? s.offset.line 1 with
            | none =>
                have hmax := hline.mp hadd
                simp [hr, hmax]
            | some line =>
                have hlt : s.offset.line.toNat < UInt32.size - 1 := by
                  have hne : s.offset.line.toNat ≠ UInt32.size - 1 := fun h => by
                    rw [hline.mpr h] at hadd
                    cases hadd
                  omega
                simpa [Loads, hplace, hr] using hlt
  · obtain ⟨e, he, -⟩ := place_of_not_inPlace index hplace
    simp [he, hplace]

/-- Otherwise the first check that fails gives the error. -/
theorem place_eq_error_iff : place index last s = .error e ↔ Fault Loads index last s e ∨
    ∃ r e', InPlace last s ∧ s.map = some r ∧ ofRecord r = .error e' ∧ e = .inSection index e' := by
  constructor
  · intro h
    by_cases hplace : InPlace last s
    · rw [place_of_inPlace hplace] at h
      cases hmap : s.map with
      | none =>
          rw [hmap] at h
          cases h
          exact Or.inl (.withoutMap hplace hmap)
      | some r =>
          rw [hmap] at h
          dsimp only at h
          split at h
          · rename_i e' hr
            cases h
            exact Or.inr ⟨r, e', hplace, rfl, hr, rfl⟩
          · rename_i m hr
            split at h
            · rename_i hadd
              cases h
              exact Or.inl (.line hplace hmap ⟨m, hr⟩ (add?_one_eq_none_iff.mp hadd))
            · cases h
    · obtain ⟨e', he', hfault⟩ := place_of_not_inPlace index hplace
      rw [he'] at h
      cases h
      exact Or.inl hfault
  · rintro (hfault | ⟨r, e', hplace, hmap, hr, rfl⟩)
    · cases hfault with
      | byUrl hurl => rw [place, if_pos (Option.isSome_iff_ne_none.mpr hurl)]
      | unordered hurl hlt =>
          rw [place, if_neg (by simp [hurl]), if_pos (by rw [hlt]; rfl)]
      | withoutMap hplace hnone => rw [place_of_inPlace hplace, hnone]
      | line hplace hmap hloads hline =>
          obtain ⟨m, hm⟩ := hloads
          simp only [place_of_inPlace hplace, hmap, hm, add?_one_eq_none_iff.mpr hline]
    · simp only [place_of_inPlace hplace, hmap, hr]

/-! ## Placing all sections -/

/-- Sections are placed if all of them pass their checks and none is before `last`. -/
theorem exists_placeAll_iff : ∀ {index : Nat} {last : Offset},
    (∃ sections, placeAll index last ss = .ok sections) ↔
      Placeable Loads ss ∧ ∀ s ∈ ss, (compare last s.offset).isLE := by
  induction ss with
  | nil =>
      intro index last
      refine ⟨fun _ => ⟨.nil, ?_⟩, fun _ => ⟨[], rfl⟩⟩
      intro s hs
      cases hs
  | cons s ss ih =>
      intro index last
      have hstep : (∃ sections, placeAll index last (s :: ss) = .ok sections) ↔
          (∃ placed, place index last s = .ok placed) ∧
            ∃ rest, placeAll (index + 1) s.offset ss = .ok rest := by
        rw [placeAll_cons_eq]
        constructor
        · rintro ⟨sections, h⟩
          obtain ⟨placed, hplaced, hrest⟩ := bind_eq_ok_iff.mp h
          obtain ⟨rest, hrest, -⟩ := map_eq_ok_iff.mp hrest
          exact ⟨⟨placed, hplaced⟩, rest, hrest⟩
        · rintro ⟨⟨placed, hplaced⟩, rest, hrest⟩
          exact ⟨placed :: rest, by rw [hplaced, ok_bind, hrest, ok_map]⟩
      rw [hstep, exists_place_iff, ih, Record.placeable_cons_iff]
      constructor
      · rintro ⟨⟨⟨hurl, hle⟩, hmap, hline⟩, hrest, horder⟩
        refine ⟨⟨hurl, hmap, hline, horder, hrest⟩, ?_⟩
        intro t ht
        rcases List.mem_cons.mp ht with rfl | ht
        · exact hle
        · exact Std.TransCmp.isLE_trans hle (horder t ht)
      · rintro ⟨⟨hurl, hmap, hline, horder, hrest⟩, hle⟩
        exact ⟨⟨⟨hurl, hle s List.mem_cons_self⟩, hmap, hline⟩, hrest, horder⟩

/-- No section starts before the file does. -/
theorem zero_isLE (o : Offset) : (compare Offset.zero o).isLE := by
  rw [Offset.isLE_iff]
  have hline : Offset.zero.line.toNat = 0 := rfl
  have hcolumn : Offset.zero.column.toNat = 0 := rfl
  omega

/-- **The first section that cannot be placed gives the error.** -/
theorem placeAll_eq_error_iff : ∀ {index : Nat} {last : Offset},
    placeAll index last ss = .error e ↔ ∃ before s after, ss = before ++ s :: after ∧
      (∃ sections, placeAll index last before = .ok sections) ∧
      place (index + before.length) (lastOffset last before) s = .error e := by
  induction ss with
  | nil =>
      intro index last
      constructor
      · rintro ⟨⟩
      · rintro ⟨before, s, after, hss, -⟩
        cases before <;> cases hss
  | cons s ss ih =>
      intro index last
      rw [placeAll_cons_eq, bind_eq_error_iff]
      constructor
      · rintro (hplace | ⟨placed, hplaced, hrest⟩)
        · exact ⟨[], s, ss, rfl, ⟨[], rfl⟩, hplace⟩
        · obtain ⟨before, t, after, hss, ⟨sections, hsections⟩, ht⟩ :=
            ih.mp (map_eq_error_iff.mp hrest)
          refine ⟨s :: before, t, after, by rw [hss, List.cons_append],
            ⟨placed :: sections, ?_⟩, ?_⟩
          · rw [placeAll_cons_eq, hplaced, ok_bind, hsections, ok_map]
          · rw [Record.lastOffset_cons, List.length_cons, Nat.add_comm before.length,
              ← Nat.add_assoc]
            exact ht
      · rintro ⟨before, t, after, hss, ⟨sections, hsections⟩, ht⟩
        cases before with
        | nil =>
            cases hss
            exact Or.inl ht
        | cons s' before =>
            cases hss
            rw [placeAll_cons_eq] at hsections
            obtain ⟨placed, hplaced, hrest⟩ := bind_eq_ok_iff.mp hsections
            obtain ⟨rest, hrest, -⟩ := map_eq_ok_iff.mp hrest
            refine Or.inr ⟨placed, hplaced, map_eq_error_iff.mpr (ih.mpr ?_)⟩
            refine ⟨before, t, after, rfl, ⟨rest, hrest⟩, ?_⟩
            rw [Record.lastOffset_cons, List.length_cons, Nat.add_comm before.length,
              ← Nat.add_assoc] at ht
            exact ht

/-! ## Loading records -/

theorem ofRecord_eq (r : Record) : ofRecord r =
    if r.version = some 3 then
      match r.sections with
      | none => (FlatMap.ofRecord r).map .flat
      | some ss => (placeAll 0 .zero ss).map (ofSections r.file)
    else .error (.unsupportedVersion r.version) := by
  obtain ⟨version, file, sourceRoot, sources, contents, names, mappings, _ | ss⟩ := r
  · rw [ofRecord]
    rfl
  · rw [ofRecord]
    rfl

/-- A record of another version is not looked at. -/
theorem ofRecord_of_version {r : Record} (hversion : r.version ≠ some 3) :
    ofRecord r = .error (.unsupportedVersion r.version) := by
  rw [ofRecord_eq, if_neg hversion]

theorem loads_flat_iff {r : Record} (hversion : r.version = some 3)
    (hsections : r.sections = none) : Loads r ↔ ∀ contents, r.sourcesContent = some contents →
      contents.length = (r.sources.getD []).length := by
  rw [Loads, ofRecord_eq, if_pos hversion, hsections]
  constructor
  · rintro ⟨m, hm⟩
    obtain ⟨f, hf, -⟩ := map_eq_ok_iff.mp hm
    exact FlatMap.aligned_of_ofRecord hf
  · intro haligned
    obtain ⟨f, hf, -⟩ := FlatMap.exists_loads haligned
    exact ⟨.flat f, map_eq_ok_iff.mpr ⟨f, hf, rfl⟩⟩

/-- A flat map is refused just when its contents are not as many as its sources. -/
theorem ofRecord_flat_eq_error_iff {r : Record} (hversion : r.version = some 3)
    (hsections : r.sections = none) : ofRecord r = .error e ↔
      ∃ contents, r.sourcesContent = some contents ∧
        contents.length ≠ (r.sources.getD []).length ∧
        e = .contentsMismatch (r.sources.getD []).length contents.length := by
  have hload : ofRecord r = (FlatMap.ofRecord r).map .flat := by
    rw [ofRecord_eq, if_pos hversion, hsections]
  rw [hload, map_eq_error_iff, FlatMap.ofRecord]
  cases r.sourcesContent with
  | none => simp
  | some contents =>
      dsimp only
      split
      · rename_i heq
        simp [heq]
      · rename_i hne
        simp [hne, eq_comm]

/-- Sections can be placed from the start of a file on if all of them pass their checks. -/
theorem exists_placeAll_zero_iff :
    (∃ sections, placeAll 0 .zero ss = .ok sections) ↔ Placeable Loads ss := by
  rw [exists_placeAll_iff]
  exact and_iff_left fun s _ => zero_isLE s.offset

theorem loads_index_iff {r : Record} (hversion : r.version = some 3)
    (hsections : r.sections = some ss) : Loads r ↔ Placeable Loads ss := by
  rw [Loads, ofRecord_eq, if_pos hversion, hsections, ← exists_placeAll_zero_iff]
  constructor
  · rintro ⟨m, hm⟩
    obtain ⟨sections, hplaced, -⟩ := map_eq_ok_iff.mp hm
    exact ⟨sections, hplaced⟩
  · rintro ⟨sections, hplaced⟩
    exact ⟨_, map_eq_ok_iff.mpr ⟨sections, hplaced, rfl⟩⟩

theorem ofRecord_index_eq_error_iff {r : Record} (hversion : r.version = some 3)
    (hsections : r.sections = some ss) :
    ofRecord r = .error e ↔ ∃ before s after, ss = before ++ s :: after ∧ Placeable Loads before ∧
      (Fault Loads before.length (lastOffset .zero before) s e ∨
        ∃ r' e', InPlace (lastOffset .zero before) s ∧ s.map = some r' ∧
          ofRecord r' = .error e' ∧ e = .inSection before.length e') := by
  have hload : ofRecord r = (placeAll 0 .zero ss).map (ofSections r.file) := by
    rw [ofRecord_eq, if_pos hversion, hsections]
  rw [hload, map_eq_error_iff, placeAll_eq_error_iff]
  refine exists_congr fun before => exists_congr fun s => exists_congr fun after => ?_
  rw [exists_placeAll_zero_iff, place_eq_error_iff, Nat.zero_add]

/-! ## Outcomes -/

/-- Whether loading a record agrees with what is said of the record alone. -/
def Settled (r : Record) : Prop :=
  (Loads r ↔ r.WellFormed) ∧ ∀ e, ofRecord r = .error e ↔ r.Refused e

theorem settled_of_version {r : Record} (hversion : r.version ≠ some 3) : Settled r := by
  have hload := ofRecord_of_version hversion
  constructor
  · constructor
    · rintro ⟨m, hm⟩
      rw [hload] at hm
      cases hm
    · rintro (⟨hright, -⟩ | ⟨hright, -⟩)
      · exact absurd hright hversion
      · exact absurd hright hversion
  · intro e
    rw [hload, Except.error.injEq]
    constructor
    · rintro rfl
      exact .version hversion
    · intro h
      cases h with
      | version => rfl
      | contents hright => exact absurd hright hversion
      | atSection hright => exact absurd hright hversion
      | inMap hright => exact absurd hright hversion

theorem settled_flat {r : Record} (hversion : r.version = some 3) (hsections : r.sections = none) :
    Settled r := by
  constructor
  · rw [loads_flat_iff hversion hsections, Record.wellFormed_flat_iff hversion hsections]
  · intro e
    rw [ofRecord_flat_eq_error_iff hversion hsections,
      Record.refused_flat_iff hversion hsections]

/-- Loading agrees for a record with sections if it does for their maps. -/
theorem settled_index {r : Record} (hversion : r.version = some 3)
    (hsections : r.sections = some ss)
    (hmaps : ∀ s ∈ ss, ∀ r', s.map = some r' → Settled r') : Settled r := by
  constructor
  · rw [loads_index_iff hversion hsections, Record.wellFormed_index_iff hversion hsections]
    exact Record.Placeable.congr fun s hs r' hr' => (hmaps s hs r' hr').1
  · intro e
    rw [ofRecord_index_eq_error_iff hversion hsections,
      Record.refused_index_iff hversion hsections]
    refine exists_congr fun before => exists_congr fun s => exists_congr fun after => ?_
    refine and_congr_right ?_
    rintro rfl
    have hs : s ∈ before ++ s :: after := List.mem_append_right before List.mem_cons_self
    refine and_congr ?_ (or_congr ?_ ?_)
    · exact Record.Placeable.congr fun t ht r' hr' =>
        (hmaps t (List.mem_append_left _ ht) r' hr').1
    · exact Record.Fault.congr fun r' hr' => (hmaps s hs r' hr').1
    · refine exists_congr fun r' => exists_congr fun e' => and_congr_right fun _ => ?_
      exact and_congr_right fun hr' => and_congr_left fun _ => (hmaps s hs r' hr').2 e'

/-- **Loading any record agrees with what is said of the record alone.** -/
theorem settled (r : Record) : Settled r := by
  induction r using Record.induction with
  | h r ih =>
      by_cases hversion : r.version = some 3
      · cases hsections : r.sections with
        | none => exact settled_flat hversion hsections
        | some ss => exact settled_index hversion hsections (ih ss hsections)
      · exact settled_of_version hversion

/-! ## Sections in order -/

/-- Whether the sections of a map start one after the other, on lines that count from 1, at every
depth. -/
inductive Ordered : LoadedMap → Prop
  | flat (f : FlatMap) : Ordered (.flat f)
  | index {file : Option String} {sections : List (Placed LoadedMap)}
      {merged : Except Error View} : (∀ s ∈ sections, s.offset.line ≠ 0) →
      (sections.Pairwise fun s t => (compare s.offset t.offset).isLE) →
      (∀ s ∈ sections, Ordered s.map) → Ordered (.index file sections merged)

/-- **Every map that a record describes has its sections in order.** -/
theorem Ordered.ofRecord (r : Record) :
    ∀ {m : LoadedMap}, LoadedMap.ofRecord r = .ok m → m.Ordered := by
  induction r using Record.induction with
  | h r ih =>
      intro m h
      rcases ofRecord_cases h with ⟨f, r', hf, rfl⟩ | ⟨ss, sections, hss, hplaced, rfl⟩
      · exact .flat f
      · have hplaces := places_of_placeAll hplaced
        refine .index ?_ (pairwise_offset hplaced) ?_
        · intro s hs
          obtain ⟨section', -, hplace⟩ := exists_of_forall₂_right hplaces s hs
          exact hplace.line_ne_zero
        · intro s hs
          obtain ⟨section', hmem, hplace⟩ := exists_of_forall₂_right hplaces s hs
          obtain ⟨r', hr', hmap⟩ := hplace.map
          exact ih ss hss section' hmem r' hr' hmap

/-- The sections of a map that is loaded are those of the record. -/
theorem exists_sections_of_ofRecord {r : Record} {m : LoadedMap} (h : ofRecord r = .ok m)
    (hsections : r.sections = some ss) :
    ∃ sections, m.sections? = some sections ∧ List.Forall₂ Places ss sections := by
  by_cases hversion : r.version = some 3
  · rw [ofRecord_eq, if_pos hversion, hsections] at h
    obtain ⟨sections, hplaced, rfl⟩ := map_eq_ok_iff.mp h
    exact ⟨sections, rfl, places_of_placeAll hplaced⟩
  · rw [ofRecord_of_version hversion] at h
    cases h

/-- **What can be loaded, and what comes of it.** Just the well-formed records can be loaded, and of
any other the first check that fails gives the error. The sections of a map that is loaded are those
of the record, with lines that count from 1, and they are in order at every depth. -/
theorem ofRecord_iff_wellFormed (r : Record) :
    ((∃ m, ofRecord r = .ok m) ↔ r.WellFormed) ∧ (∀ e, ofRecord r = .error e ↔ r.Refused e) ∧
      ∀ m, ofRecord r = .ok m → m.Ordered ∧ ∀ ss, r.sections = some ss →
        ∃ sections, m.sections? = some sections ∧ List.Forall₂ Places ss sections := by
  obtain ⟨hloads, hfails⟩ := settled r
  refine ⟨hloads, hfails, ?_⟩
  intro m hm
  exact ⟨.ofRecord r hm, fun ss hss => exists_sections_of_ofRecord hm hss⟩

/-- An index map inside another one, and the same with a section by address in the inner one, which
counts before the section that is out of order behind it. -/
theorem ofRecord_iff_wellFormed_nested :
    let flat : Record :=
      { version := some 3, sources := some [none, some "a.js"]
        sourcesContent := some [none, none] }
    let inner (url : Option String) : Record :=
      { version := some 3
        sections := some [{ offset := ⟨0, 2⟩, map := some flat },
          { offset := ⟨0, 2⟩, map := some flat, url }] }
    let outer (url : Option String) (last : Offset) : Record :=
      { version := some 3
        sections := some [{ offset := ⟨4, 1⟩, map := some flat },
          { offset := ⟨4, 7⟩, map := some (inner url) }, { offset := last, map := some flat }] }
    (outer none ⟨4294967294, 0⟩).WellFormed ∧
      (∃ m, ofRecord (outer none ⟨4294967294, 0⟩) = .ok m ∧ m.Ordered) ∧
      (outer (some "a.map") ⟨0, 0⟩).Refused (.inSection 1 (.sectionByUrl 1)) ∧
      (outer none ⟨0, 0⟩).Refused .unorderedSections ∧
      (outer none ⟨Coordinate.largest, 0⟩).Refused (.sectionOffsetOutOfRange 2) := by
  intro flat inner outer
  obtain ⟨hloads, -, hordered⟩ := ofRecord_iff_wellFormed (outer none ⟨4294967294, 0⟩)
  obtain ⟨m, hm⟩ : ∃ m, ofRecord (outer none ⟨4294967294, 0⟩) = .ok m := ⟨_, rfl⟩
  refine ⟨hloads.mp ⟨m, hm⟩, ⟨m, hm, (hordered m hm).1⟩, ?_, ?_, ?_⟩
  · exact ((ofRecord_iff_wellFormed _).2.1 _).mp rfl
  · exact ((ofRecord_iff_wellFormed _).2.1 _).mp rfl
  · exact ((ofRecord_iff_wellFormed _).2.1 _).mp rfl

end LoadedMap

end SourceMap

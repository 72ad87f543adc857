import Mathlib
import SourceMap.Proofs.Rebuilding
import SourceMap.Proofs.Nearest
import SourceMap.Proofs.SourceRoot

/-!
# Contents kept

A builder that starts from a map keeps each content under the source as it is seen from the root,
and writes it for the source that the root makes the same of, when it is seen from there once more
(`contentOf_ofMap`). So the content of a source is written just where seeing it from the root twice
is seeing it once (`sourcesContent_ofMap`). This is so for names that can be reversed, if the root
is absolute or there is none (`Reversible.relativize_eq`). Under a root that is relative, a name can
lead into a directory that is called like the root.
-/

set_option autoImplicit false

namespace SourceMap

/-! ## Directories that hold no relative name -/

namespace Path

theorem prefix_of_mem_cuts {cs d : List Char} (h : d ∈ cuts cs) : d <+: cs := by
  induction cs generalizing d with
  | nil => cases h
  | cons c cs ih =>
      rw [cuts] at h
      rcases List.mem_append.mp h with h | h
      · obtain ⟨d', hd', rfl⟩ := List.mem_map.mp h
        exact List.cons_prefix_cons.mpr ⟨rfl, ih hd'⟩
      · split_ifs at h
        · rw [List.mem_singleton.mp h]
          exact List.nil_prefix
        · cases h

/-- The directories above a root stand in front of it. -/
theorem prefix_of_mem_ancestors {root d : List Char} (hne : root ≠ []) (h : d ∈ ancestors root) :
    d <+: root := by
  have hslash : dropSlash root <+: root := by
    rw [dropSlash]
    split_ifs
    · exact List.dropLast_prefix root
    · exact List.prefix_rfl
  rw [ancestors_eq hne, upward] at h
  rcases List.mem_cons.mp h with rfl | h
  · exact hslash
  · exact (prefix_of_mem_cuts (List.takeWhile_subset _ h)).trans hslash

/-- The directories above a URL have its stem. -/
theorem exists_of_mem_ancestors {root d : List Char} {u : Url} (hu : Url.ofChars? root = some u)
    (hbare : u.path = [] → u.host ≠ []) (h : d ∈ ancestors root) : ∃ d', d = u.stem ++ d' := by
  obtain ⟨hspelled, hsound⟩ := Url.toChars_of_ofChars? hu
  rw [Url.toChars_eq] at hspelled
  have hdrop : ∃ dir, dropSlash root = u.stem ++ dir := by
    rw [← hspelled]
    by_cases hpath : u.path = []
    · rw [hpath, List.append_nil, dropSlash_of_ne (getLast?_stem_ne hsound (hbare hpath))]
      exact ⟨[], (List.append_nil _).symm⟩
    · exact ⟨_, dropSlash_append _ hpath⟩
  obtain ⟨dir, hdir⟩ := hdrop
  rw [ancestors_eq (ne_nil_of_ofChars? hu), hdir, upward_stem hsound] at h
  obtain ⟨d', -, rfl⟩ := List.mem_map.mp h
  exact ⟨d', rfl⟩

/-- **A relative name is in no directory above an absolute root.** -/
theorem below?_of_absolute {root name d : List Char} (hroot : isAbsoluteChars root = true)
    (htidy : Tidy root) (hhead : name.head? ≠ some '/') (hname : Collapsed name)
    (hd : d ∈ ancestors root) : below? d name = none := by
  cases hbelow : below? d name with
  | none => rfl
  | some rest =>
      rw [below?_eq_some_iff] at hbelow
      rw [isAbsoluteChars, Bool.or_eq_true, beq_iff_eq] at hroot
      rcases hroot with hslash | hurl
      · -- the directory starts with the slash of the root, or is the top
        have hne : root ≠ [] := by
          rintro rfl
          cases hslash
        obtain ⟨more, rfl⟩ := prefix_of_mem_ancestors hne hd
        cases d with
        | nil => rw [hbelow] at hhead; exact absurd rfl hhead
        | cons c d => rw [hbelow] at hhead; exact absurd hslash hhead
      · -- the stem of the directory has two slashes
        obtain ⟨u, hu⟩ := Option.isSome_iff_exists.mp hurl
        have hbare : u.path = [] → u.host ≠ [] := by
          intro hpath
          rw [Tidy, hu] at htidy
          simpa only [hpath, if_true] using htidy
        obtain ⟨d', rfl⟩ := exists_of_mem_ancestors hu hbare hd
        rw [hbelow, Url.stem] at hname
        simp only [List.append_assoc, List.cons_append] at hname
        exact absurd hname Collapsed.not_slashes

end Path

namespace SourceRoot

open SourceMap.Path

/-- **A name that can be reversed is seen from an absolute root as it is.** -/
theorem Reversible.relativize_eq {root : Option String} {name : String} (h : Reversible root name)
    (hroot : ∀ r, root = some r → isAbsolute r = true) : relativize root name = name := by
  cases h with
  | bare => rfl
  | @way root name before after dir rest htidy _ _ hrest hname _ =>
      obtain ⟨ts, hts, -, rfl⟩ := hrest.exists_components
      have hups := hts.steps before.length
      rw [steps_append hts.ne_nil] at hname
      have hnone : ∀ d ∈ ancestors root.toList, below? d name.toList = none := by
        intro d hd
        rw [hname]
        exact below?_of_absolute (hroot root rfl) htidy hups.head?_ne hups.collapsed hd
      rw [relativize, relative, relativeChars_of_forall hnone, String.ofList_toList]
  | apart _ hdirs => rw [relativize, relative, relativeChars_of_forall hdirs, String.ofList_toList]

end SourceRoot

/-! ## Contents by what the root makes of a source -/

/-- Sources that look the same from the root have the same content. -/
theorem FlatMap.contentFor_congr {f : FlatMap} {s s' : String}
    (h : SourceRoot.relativize f.root s = SourceRoot.relativize f.root s') (nullOnMissing : Bool) :
    f.contentFor s nullOnMissing = f.contentFor s' nullOnMissing := by
  rw [FlatMap.contentFor, FlatMap.contentFor, h]

namespace Builder

variable {m : LoadedMap} {done : String → Prop} {b b' : Builder} {s text : String}

/-- A content that is set is that of all sources that look the same from the root. -/
theorem contentOf_setContent (b : Builder) (s text source : String) :
    (b.setContent s (some text)).contentOf source =
      if SourceRoot.relativize b.root s = SourceRoot.relativize b.root source then some text
      else b.contentOf source := by
  show ((b.contents.getD ∅).insert (SourceRoot.relativize b.root s) text)[
    SourceRoot.relativize b.root source]? = _
  rw [Std.TreeMap.getElem?_insert]
  simp only [Std.compare_eq_iff_eq]
  split_ifs
  · rfl
  · rw [contentOf]
    cases b.contents with
    | none => simp
    | some contents => rfl

/-- Whether a builder has just the contents that a map has for some sources. -/
def Filled (m : LoadedMap) (done : String → Prop) (b : Builder) : Prop :=
  ∀ source text, b.contentOf source = some text ↔ ∃ s, done s ∧
    SourceRoot.relativize b.root s = SourceRoot.relativize b.root source ∧
    m.contentFor s true = .ok (some text)

/-- Whether a map has the same content for sources that look the same from a root. -/
def Blind (m : LoadedMap) (root : Option String) : Prop :=
  ∀ s s', SourceRoot.relativize root s = SourceRoot.relativize root s' →
    m.contentFor s true = m.contentFor s' true

theorem Filled.setContent (h : Filled m done b) (hblind : Blind m b.root)
    (hs : m.contentFor s true = .ok (some text)) :
    Filled m (fun t => done t ∨ t = s) (b.setContent s (some text)) := by
  intro source text'
  rw [contentOf_setContent]
  show _ ↔ ∃ t, (done t ∨ t = s) ∧
    SourceRoot.relativize b.root t = SourceRoot.relativize b.root source ∧
    m.contentFor t true = .ok (some text')
  constructor
  · intro hcontent
    split_ifs at hcontent with hkey
    · cases hcontent
      exact ⟨s, Or.inr rfl, hkey, hs⟩
    · obtain ⟨t, ht, hsame, hfound⟩ := (h source text').mp hcontent
      exact ⟨t, Or.inl ht, hsame, hfound⟩
  · rintro ⟨t, ht, hsame, hfound⟩
    split_ifs with hkey
    · -- what was there before looks the same, so it had the same content
      rw [hblind t s (hsame.trans hkey.symm), hs] at hfound
      cases hfound
      rfl
    · rcases ht with ht | rfl
      · exact (h source text').mpr ⟨t, ht, hsame, hfound⟩
      · exact absurd hsame hkey

/-- A source without content changes nothing. -/
theorem Filled.skip (h : Filled m done b) (hs : m.contentFor s true = .ok none) :
    Filled m (fun t => done t ∨ t = s) b := by
  intro source text
  rw [h source text]
  refine exists_congr fun t => ?_
  constructor
  · rintro ⟨ht, hrest⟩
    exact ⟨Or.inl ht, hrest⟩
  · rintro ⟨ht | rfl, hsame, hfound⟩
    · exact ⟨ht, hsame, hfound⟩
    · rw [hs] at hfound
      cases hfound

/-- **Copying takes over just the contents of the given sources.** -/
theorem Filled.copyContents {sources : List String} (hblind : Blind m b.root) :
    Filled m done b → b.copyContents m id sources = .ok b' →
      Filled m (fun t => done t ∨ t ∈ sources) b' := by
  induction sources generalizing b done with
  | nil =>
      intro h hcopy
      cases hcopy
      simpa using h
  | cons s sources ih =>
      intro h hcopy
      have hmem : (fun t => done t ∨ t ∈ s :: sources) =
          fun t => (done t ∨ t = s) ∨ t ∈ sources := by
        funext t
        rw [List.mem_cons, or_assoc]
      rw [hmem]
      rw [Builder.copyContents] at hcopy
      split at hcopy
      · cases hcopy
      · rename_i hs
        exact ih hblind (h.skip hs) hcopy
      · rename_i text hs
        exact ih (b := b.setContent s (some text)) hblind (h.setContent hblind hs) hcopy

/-- Adding mappings sets no contents. -/
theorem contents_foldlM_addMapping {f : Mapping → Mapping} {ms : List Mapping}
    (h : ms.foldlM (fun b a => b.addMapping (f a)) b = .ok b') :
    b'.contents = b.contents ∧ b'.root = b.root := by
  refine foldlM_invariant (p := fun c => c.contents = b.contents ∧ c.root = b.root) ?_ ⟨rfl, rfl⟩ h
  intro c a c' hc hadd
  obtain ⟨-, rfl⟩ := addMapping_eq_ok_iff.mp hadd
  exact hc

/-- **What a builder that starts from a flat map writes for a source** is the content of the sources
of the map that the root makes the same of. -/
theorem contentOf_ofMap {f : FlatMap} (hb : ofMap (.flat f) = .ok b) (source text : String) :
    b.contentOf source = some text ↔ ∃ s ∈ f.sourceNames,
      SourceRoot.relativize f.root s = SourceRoot.relativize f.root source ∧
      f.contentFor s true = .ok (some text) := by
  obtain ⟨ms, -, hrest⟩ := bind_eq_ok_iff.mp hb
  obtain ⟨b₁, hadd, hcopy⟩ := bind_eq_ok_iff.mp hrest
  obtain ⟨hcontents, hroot₁⟩ := contents_foldlM_addMapping hadd
  have hstart : Filled (.flat f) (fun _ => False) b₁ := by
    intro source text
    simp [contentOf, hcontents]
  have hblind : Blind (.flat f) b₁.root := by
    rw [hroot₁]
    exact fun s s' hsame => FlatMap.contentFor_congr hsame true
  have hroot : b.root = f.root := by
    obtain ⟨contents, rfl⟩ := sameMappings_copyContents hcopy
    exact hroot₁
  have hfilled := hstart.copyContents hblind hcopy source text
  rw [hroot] at hfilled
  simpa [LoadedMap.contentFor, LoadedMap.sourceNames] using hfilled

/-- The source of a listed mapping is one that the map tells. -/
theorem mem_sourceNames {r : Record} {f : FlatMap} (h : FlatMap.ofRecord r = .ok f)
    {listed : List Mapping} (hlisted : (LoadedMap.flat f).mappings .generated = .ok listed)
    {a : Mapping} (ha : a ∈ listed) {o : OriginalLocation} (ho : a.original = some o) :
    o.source ∈ f.sourceNames := by
  obtain ⟨v, hview, rfl⟩ := map_eq_ok_iff.mp hlisted
  have hv : f.view = .ok v := hview
  obtain ⟨e, he, slot, -, hplace, hsource⟩ := View.exists_entry ha ho
  have hlt := ((LoadedMap.Sound.ofFlat h).view hview).slot_lt he hplace
  obtain ⟨name, hname, -, hfull⟩ := FlatMap.exists_name hv hlt
  rw [← hsource, hfull]
  exact List.mem_map_of_mem hname

/-- The record of a builder has the content of a source in its slot. -/
theorem getElem?_sourcesContent {source : String} {slot : Nat}
    (hslot : b.sources.indexOf? source = some slot) (h : b.contentOf source = some text) :
    ∃ contents, b.toRecord.sourcesContent = some contents ∧ contents[slot]? = some (some text) := by
  obtain ⟨contents, hcontents, -⟩ := Option.bind_eq_some_iff.mp h
  refine ⟨b.sourcesContent, ?_, ?_⟩
  · show b.contents.map (fun _ => b.sourcesContent) = _
    rw [hcontents, Option.map_some]
  · have hget := StringTable.get?_of_indexOf? hslot
    rw [StringTable.get?_eq] at hget
    rw [sourcesContent, List.getElem?_map, hget, Option.map_some, h]

/-- **Contents survive where the root makes the same of a source twice.** Every flat map that a
record describes and that can be listed can be built again. The builder has the mappings as they are
seen from the root, and writes for a source the content of those that the root makes the same of. So
if the source of a mapping, seen from the root, looks the same from there again, its content is
written in its slot. It does if the source stands for a name that can be reversed, and the root is
absolute or there is none. This is about string tables whose slots have numbers of 32 bits. -/
theorem sourcesContent_ofMap {r : Record} {f : FlatMap} (h : FlatMap.ofRecord r = .ok f)
    {listed : List Mapping} (hlisted : (LoadedMap.flat f).mappings .generated = .ok listed) :
    ∃ b, ofMap (.flat f) = .ok b ∧ b.mappings = listed.map (relativized f.root) ∧
      (∀ source text, b.contentOf source = some text ↔ ∃ s ∈ f.sourceNames,
        SourceRoot.relativize f.root s = SourceRoot.relativize f.root source ∧
        (LoadedMap.flat f).contentFor s true = .ok (some text)) ∧
      ∀ a ∈ listed, ∀ o, a.original = some o → ∃ kept slot,
        (relativized f.root a).source? = some kept ∧ b.sources.indexOf? kept = some slot ∧
        (SourceRoot.relativize f.root kept = kept → ∀ text,
          (LoadedMap.flat f).contentFor o.source true = .ok (some text) →
            ∃ contents, b.toRecord.sourcesContent = some contents ∧
              contents[slot]? = some (some text)) ∧
        ((∃ name, SourceRoot.Reversible f.root name ∧ SourceRoot.resolve f.root name = o.source) →
          (∀ root, f.root = some root → Path.isAbsolute root = true) →
            SourceRoot.relativize f.root kept = kept) := by
  obtain ⟨b, hb, hmappings, -, -⟩ := ofMap_eq_ok (.ofFlat h) hlisted
  have hsound : b.Sound := .ofMap hb
  refine ⟨b, hb, hmappings, contentOf_ofMap hb, ?_⟩
  intro a ha o ho
  have hsource : (relativized f.root a).source? = some (SourceRoot.relativize f.root o.source) := by
    rw [Mapping.source?, relativized, ho]
    rfl
  have hmem : relativized f.root a ∈ b.mappings := by
    rw [hmappings]
    exact List.mem_map_of_mem ha
  obtain ⟨slot, hslot⟩ :=
    StringTable.exists_indexOf? (hsound.mem_sources_iff.mpr ⟨_, hmem, hsource⟩)
  refine ⟨_, slot, hsource, hslot, ?_, ?_⟩
  · intro hagain text htext
    have htold := mem_sourceNames h hlisted ha ho
    exact getElem?_sourcesContent hslot
      ((contentOf_ofMap hb _ _).mpr ⟨o.source, htold, hagain.symm, htext⟩)
  · rintro ⟨name, hreversible, hfull⟩ hroot
    rw [← hfull, hreversible.relativize_resolve]
    exact hreversible.relativize_eq hroot

/-- A source below an absolute root. -/
theorem sourcesContent_ofMap_absolute :
    let r : Record :=
      { version := some 3, sourceRoot := some "/src", sources := some [some "/src/a.js"]
        sourcesContent := some [some "text"], mappings := some "AAAA" }
    ∃ f b, FlatMap.ofRecord r = .ok f ∧
      (LoadedMap.flat f).mappings .generated =
        .ok [{ generated := ⟨1, 0⟩, original := some ⟨"/src/a.js", ⟨1, 0⟩⟩ }] ∧
      ofMap (.flat f) = .ok b ∧
      (LoadedMap.flat f).contentFor "/src/a.js" true = .ok (some "text") ∧
      ∃ slot contents, b.sources.indexOf? "a.js" = some slot ∧
        b.toRecord.sourcesContent = some contents ∧ contents[slot]? = some (some "text") := by
  intro r
  have hread : (FlatMap.ofRecord r).map (fun f => ((LoadedMap.flat f).mappings .generated,
      (LoadedMap.flat f).contentFor "/src/a.js" true)) =
        .ok (.ok [{ generated := ⟨1, 0⟩, original := some ⟨"/src/a.js", ⟨1, 0⟩⟩ }],
          .ok (some "text")) := by
    cbv
  obtain ⟨f, hf⟩ : ∃ f, FlatMap.ofRecord r = .ok f := ⟨_, rfl⟩
  rw [hf] at hread
  obtain ⟨hlisted, hcontent⟩ := Prod.mk.inj (Except.ok.inj hread)
  have hroot : f.root = some "/src" := by simp [(FlatMap.loads_of_ofRecord hf).root, r]
  have hchars : "/src".toList = ['/', 's', 'r', 'c'] := rfl
  have hreversible : SourceRoot.Reversible f.root "a.js" := by
    rw [hroot]
    refine .below ?_ ⟨by decide, by decide, by decide, by decide⟩ (by decide)
    rw [hchars]
    show Path.normalizePath _ = _ ∧ _
    decide
  have hresolved : SourceRoot.resolve f.root "a.js" = "/src/a.js" := by
    rw [hroot]
    decide +kernel
  have hkept : SourceRoot.relativize f.root "/src/a.js" = "a.js" := by
    rw [hroot]
    decide +kernel
  obtain ⟨b, hb, -, -, hcontents⟩ := sourcesContent_ofMap hf hlisted
  obtain ⟨kept, slot, hsource, hslot, hwritten, hagain⟩ :=
    hcontents _ (List.mem_singleton_self _) ⟨"/src/a.js", ⟨1, 0⟩⟩ rfl
  have hsame : kept = "a.js" := by
    rw [← hkept]
    exact (Option.some.inj hsource).symm
  rw [hsame] at hslot
  have habsolute : ∀ root, f.root = some root → Path.isAbsolute root = true := by
    rintro root h
    rw [hroot] at h
    cases h
    decide
  obtain ⟨contents, hsome, hget⟩ :=
    hwritten (hagain ⟨"a.js", hreversible, hresolved⟩ habsolute) "text" hcontent
  exact ⟨f, b, hf, hlisted, hb, hcontent, slot, contents, hslot, hsome, hget⟩

/-- Under a relative root, a source in a directory that is called like the root loses its content.
-/
theorem sourcesContent_relative_root :
    let r : Record :=
      { version := some 3, sourceRoot := some "a", sources := some [some "a/x.js"]
        sourcesContent := some [some "text"], mappings := some "AAAA" }
    ∃ f b, FlatMap.ofRecord r = .ok f ∧
      (LoadedMap.flat f).mappings .generated =
        .ok [{ generated := ⟨1, 0⟩, original := some ⟨"a/a/x.js", ⟨1, 0⟩⟩ }] ∧
      (LoadedMap.flat f).contentFor "a/a/x.js" true = .ok (some "text") ∧
      ofMap (.flat f) = .ok b ∧ b.sources.toList = ["a/x.js"] ∧
      b.toRecord.sourcesContent = some [none] := by
  intro r
  have hread : (FlatMap.ofRecord r).bind (fun f => (ofMap (.flat f)).map fun b =>
      ((LoadedMap.flat f).mappings .generated, (LoadedMap.flat f).contentFor "a/a/x.js" true,
        b.sources.toList, b.toRecord.sourcesContent)) =
          .ok (.ok [{ generated := ⟨1, 0⟩, original := some ⟨"a/a/x.js", ⟨1, 0⟩⟩ }],
            .ok (some "text"), ["a/x.js"], some [none]) := by
    cbv
  obtain ⟨f, hf⟩ : ∃ f, FlatMap.ofRecord r = .ok f := ⟨_, rfl⟩
  rw [hf] at hread
  obtain ⟨b, hb, hparts⟩ := map_eq_ok_iff.mp hread
  obtain ⟨hlisted, hrest⟩ := Prod.mk.inj hparts
  obtain ⟨hcontent, hrest⟩ := Prod.mk.inj hrest
  obtain ⟨hsources, hcontents⟩ := Prod.mk.inj hrest
  exact ⟨f, b, hf, hlisted, hcontent, hb, hsources, hcontents⟩

end Builder

end SourceMap

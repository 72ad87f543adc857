import Mathlib
import SourceMap.Proofs.Ancestors
import SourceMap.SourceRoot

/-!
# Names below a root

Resolving a name against a root and making the result relative to the root again gives the name back
if the root is in normal form and the name leads up to a directory of the root and down from there
(`joinChars_way`, `relativeChars_of_ancestors`), or if the name needs no root and is in none of its
directories. `Reversible` says which names these are, and `relativize_resolve` that they come back.
-/

set_option autoImplicit false

namespace SourceMap

namespace Path

/-! ## Directories -/

/-- Whether components are those of a directory in normal form, without a slash behind them. -/
structure Dirs (rs : List (List Char)) : Prop where
  ne_nil : rs ≠ []
  noSlash : ∀ r ∈ rs, '/' ∉ r
  inner : ∀ r ∈ rs.tail, r ≠ []
  settled : resolved rs = rs

/-- Below a directory there can be components of any kind. -/
theorem Dirs.append {rs ts : List (List Char)} (h : Dirs rs) (hts : Rest ts) :
    Separated (rs ++ ts) := by
  cases rs with
  | nil => exact absurd rfl h.ne_nil
  | cons r rs =>
      refine .cons (h.noSlash r List.mem_cons_self) (.of_forall ?_ hts)
      intro q hq
      exact ⟨h.noSlash q (List.mem_cons_of_mem _ hq), h.inner q hq⟩

theorem Rest.forall {ps : List (List Char)} (h : Rest ps) :
    (∀ p ∈ ps, '/' ∉ p) ∧ ∀ p ∈ ps.dropLast, p ≠ [] := by
  induction h with
  | last hp =>
      refine ⟨fun q hq => ?_, fun q hq => absurd hq List.not_mem_nil⟩
      rw [List.mem_singleton.mp hq]
      exact hp
  | cons hp hne hps ih =>
      obtain ⟨hslash, hinner⟩ := ih
      rw [List.dropLast_cons_of_ne_nil hps.ne_nil, List.forall_mem_cons, List.forall_mem_cons]
      exact ⟨⟨hp, hslash⟩, hne, hinner⟩

theorem Separated.forall {ps : List (List Char)} (h : Separated ps) :
    (∀ p ∈ ps, '/' ∉ p) ∧ ∀ p ∈ ps.tail.dropLast, p ≠ [] := by
  cases h with
  | single hp => exact (Rest.last hp).forall
  | cons hp hps =>
      obtain ⟨hslash, hinner⟩ := hps.forall
      rw [List.forall_mem_cons]
      exact ⟨⟨hp, hslash⟩, hinner⟩

/-- A directory has no slash behind it. -/
theorem Dirs.getLast?_ne {rs : List (List Char)} (h : Dirs rs) :
    (joinComponents rs).getLast? ≠ some '/' := by
  rcases List.eq_nil_or_concat rs with hnil | ⟨qs, r, hrs⟩
  · exact absurd hnil h.ne_nil
  · rw [List.concat_eq_append] at hrs
    subst hrs
    have hslash : r.getLast? ≠ some '/' := fun hlast =>
      h.noSlash r (by simp) (List.mem_of_getLast? hlast)
    by_cases hqs : qs = []
    · rw [hqs, List.nil_append, joinComponents_singleton]
      exact hslash
    · -- the last component is not the first, and has a last character
      have hr : r ≠ [] := h.inner r (by rw [List.tail_append_of_ne_nil hqs]; simp)
      rw [joinComponents_append hqs (List.cons_ne_nil _ _), joinComponents_singleton,
        List.getLast?_append, List.getLast?_cons, List.getLast?_eq_some_getLast hr]
      rw [List.getLast?_eq_some_getLast hr] at hslash
      exact hslash

/-! ## Trailing slashes -/

theorem dropSlash_of_ne {cs : List Char} (h : cs.getLast? ≠ some '/') : dropSlash cs = cs :=
  if_neg h

theorem dropSlash_concat (cs : List Char) : dropSlash (cs ++ ['/']) = cs := by
  rw [dropSlash, if_pos List.getLast?_concat, List.dropLast_concat]

theorem dropTrailingSlashes_of_ne {cs : List Char} (h : cs.getLast? ≠ some '/') :
    dropTrailingSlashes cs = cs := by
  have hhead : cs.reverse.head? ≠ some '/' := by rwa [List.head?_reverse]
  rw [dropTrailingSlashes]
  cases hrev : cs.reverse with
  | nil => rw [List.reverse_eq_nil_iff.mp hrev]; rfl
  | cons c rest =>
      have hc : ¬ (c == '/') = true := by
        rw [beq_iff_eq]
        rintro rfl
        rw [hrev] at hhead
        exact hhead rfl
      rw [List.dropWhile_cons_of_neg (p := (· == '/')) hc, ← hrev, List.reverse_reverse]

theorem dropTrailingSlashes_concat (cs : List Char) :
    dropTrailingSlashes (cs ++ ['/']) = dropTrailingSlashes cs := by
  simp [dropTrailingSlashes]

/-- **A path in normal form is that of a directory, without its trailing slash.** -/
theorem exists_dirs {path : List Char} (h : normalizePath path = path) (hdot : path ≠ ['.']) :
    ∃ rs, Dirs rs ∧ dropSlash path = joinComponents rs ∧
      dropTrailingSlashes path = joinComponents rs := by
  rcases exists_settled h with hpath | ⟨ps, hps, hsettled, rfl⟩
  · exact absurd hpath hdot
  · obtain ⟨hslash, hinner⟩ := hps.forall
    rcases List.eq_nil_or_concat ps with hnil | ⟨qs, p, heq⟩
    · exact absurd hnil hps.ne_nil
    · rw [List.concat_eq_append] at heq
      subst heq
      have htail (hqs : qs ≠ []) : (qs ++ [p]).tail = qs.tail ++ [p] :=
        List.tail_append_of_ne_nil hqs
      by_cases hp : p = []
      · -- a slash comes last
        subst hp
        have hqs : qs ≠ [] := by
          rintro rfl
          exact absurd h (by decide)
        have hdirs : Dirs qs := by
          refine ⟨hqs, fun r hr => hslash r (List.mem_append_left _ hr), ?_, ?_⟩
          · rw [htail hqs, List.dropLast_concat] at hinner
            exact hinner
          · have happend : resolved (qs ++ [[]]) = resolved qs ++ [[]] := resolved_append qs rfl
            rw [hsettled] at happend
            exact (List.append_cancel_right happend).symm
        have hlast := hdirs.getLast?_ne
        rw [joinComponents_append hqs (List.cons_ne_nil _ _), joinComponents_singleton]
        exact ⟨qs, hdirs, dropSlash_concat _,
          (dropTrailingSlashes_concat _).trans (dropTrailingSlashes_of_ne hlast)⟩
      · have hdirs : Dirs (qs ++ [p]) := by
          refine ⟨hps.ne_nil, hslash, ?_, hsettled⟩
          by_cases hqs : qs = []
          · rw [hqs]
            exact fun r hr => absurd hr List.not_mem_nil
          · rw [htail hqs, List.dropLast_concat] at hinner
            rw [htail hqs]
            intro r hr
            rcases List.mem_append.mp hr with hr | hr
            · exact hinner r hr
            · rw [List.mem_singleton.mp hr]
              exact hp
        have hlast := hdirs.getLast?_ne
        exact ⟨_, hdirs, dropSlash_of_ne hlast, dropTrailingSlashes_of_ne hlast⟩

/-! ## Roots in normal form -/

/-- Whether a root is in normal form: a path other than the current directory, or a URL with such a
path, or with a host and no path. -/
def Tidy (root : List Char) : Prop :=
  match Url.ofChars? root with
  | none => normalizePath root = root ∧ root ≠ ['.']
  | some base =>
    if base.path = [] then base.host ≠ []
    else normalizePath base.path = base.path ∧ base.path ≠ ['.']

/-- How a root is made of a stem, which names are never resolved against, and directories. -/
structure Shape (root stem : List Char) (rs : List (List Char)) : Prop where
  dirs : Dirs rs
  ancestors_eq : ancestors root =
    (upward (fun dir => isSchemeRoot (stem ++ dir)) (joinComponents rs)).map (stem ++ ·)
  join_eq : ∀ {path : List Char}, path ≠ [] → path.head? ≠ some '/' →
    Url.ofChars? path = none → isData path = false →
      joinChars root path = stem ++ normalizeChars (joinComponents rs ++ '/' :: path)

theorem ne_nil_of_normalizePath {path : List Char} (h : normalizePath path = path) :
    path ≠ [] := by
  rintro rfl
  exact absurd h (by decide)

theorem orDot_of_ne {cs : List Char} (h : cs ≠ []) : orDot cs = cs :=
  if_neg (by simpa using h)

/-- Below a root that is no URL a name is a path behind it. -/
theorem joinChars_of_path {root path : List Char} (hroot : Url.ofChars? root = none)
    (hne : root ≠ []) (hpath : path ≠ []) (hhead : path.head? ≠ some '/')
    (hurl : Url.ofChars? path = none) (hdata : isData path = false) :
    joinChars root path = normalizeChars (dropTrailingSlashes root ++ '/' :: path) := by
  simp only [joinChars, orDot_of_ne hne, orDot_of_ne hpath, hurl, hroot, hdata, joinPaths,
    if_neg hhead]
  rfl

/-- A path in normal form has no stem. -/
theorem Shape.of_path {root : List Char} (hroot : Url.ofChars? root = none)
    (h : normalizePath root = root) (hdot : root ≠ ['.']) : ∃ rs, Shape root [] rs := by
  have hne := ne_nil_of_normalizePath h
  obtain ⟨rs, hdirs, hslash, hslashes⟩ := exists_dirs h hdot
  refine ⟨rs, hdirs, ?_, ?_⟩
  · rw [Path.ancestors_eq hne, hslash]
    simp
  · intro path hpath hhead hurl hdata
    rw [joinChars_of_path hroot hne hpath hhead hurl hdata, hslashes]
    rfl

theorem dropSlash_append (a : List Char) {b : List Char} (h : b ≠ []) :
    dropSlash (a ++ b) = a ++ dropSlash b := by
  have hlast : (a ++ b).getLast? = b.getLast? := List.getLast?_append_of_ne_nil a h
  rw [dropSlash, dropSlash, hlast]
  split_ifs
  · exact List.dropLast_append_of_ne_nil h
  · rfl

/-- A host has no slash behind it. -/
theorem getLast?_stem_ne {base : Url} (h : base.Sound) (hhost : base.host ≠ []) :
    base.stem.getLast? ≠ some '/' := by
  have hne : base.authority ≠ [] := by simp [Url.authority, hhost]
  intro hlast
  rw [Url.stem, List.getLast?_append, List.getLast?_cons, List.getLast?_cons,
    List.getLast?_eq_some_getLast hne] at hlast
  have heq : base.authority.getLast hne = '/' := Option.some.inj hlast
  have hmem := List.getLast_mem hne
  rw [heq] at hmem
  exact h.authority hmem

theorem ne_nil_of_ofChars? {cs : List Char} {u : Url} (h : Url.ofChars? cs = some u) : cs ≠ [] := by
  rintro rfl
  cases h

/-- Below a URL a name is a path behind its path, or behind its host. -/
theorem joinChars_of_url {root path : List Char} {base : Url}
    (hroot : Url.ofChars? root = some base) (hbare : base.path = [] → base.host ≠ [])
    (hpath : path ≠ []) (hurl : Url.ofChars? path = none) (hdata : isData path = false) :
    joinChars root path =
      base.stem ++ joinPaths (if base.path.isEmpty then ['/'] else base.path) path := by
  have hnot : ¬ (base.host.isEmpty && base.path.isEmpty) = true := by
    rw [Bool.and_eq_true, List.isEmpty_iff, List.isEmpty_iff]
    exact fun hboth => hbare hboth.2 hboth.1
  simp only [joinChars, orDot_of_ne (ne_nil_of_ofChars? hroot), orDot_of_ne hpath, hurl, hroot,
    hdata, Bool.false_eq_true, if_false, if_neg hnot, Url.toChars_eq]
  rfl

/-- A URL without a path is its stem, and names are put behind a slash. -/
theorem Shape.of_host {root : List Char} {base : Url} (hroot : Url.ofChars? root = some base)
    (hpath : base.path = []) (hhost : base.host ≠ []) : Shape root base.stem [[]] := by
  obtain ⟨hspelled, hsound⟩ := Url.toChars_of_ofChars? hroot
  rw [Url.toChars_eq, hpath, List.append_nil] at hspelled
  have hdirs : Dirs [[]] := by
    refine ⟨List.cons_ne_nil _ _, ?_, fun r hr => absurd hr List.not_mem_nil, rfl⟩
    intro r hr
    rw [List.mem_singleton.mp hr]
    exact List.not_mem_nil
  refine ⟨hdirs, ?_, ?_⟩
  · have hlast := getLast?_stem_ne hsound hhost
    have hupward := upward_stem hsound []
    rw [List.append_nil] at hupward
    rw [Path.ancestors_eq (ne_nil_of_ofChars? hroot), ← hspelled, dropSlash_of_ne hlast,
      joinComponents_singleton]
    exact hupward
  · intro path hne hhead hurl hdata
    rw [joinChars_of_url hroot (fun _ => hhost) hne hurl hdata, hpath, joinPaths, if_neg hhead]
    rfl

/-- The stem of a URL is what stands before its path. -/
theorem Shape.of_url {root : List Char} {base : Url} (hroot : Url.ofChars? root = some base)
    (hpath : base.path ≠ []) (h : normalizePath base.path = base.path)
    (hdot : base.path ≠ ['.']) : ∃ rs, Shape root base.stem rs := by
  obtain ⟨hspelled, hsound⟩ := Url.toChars_of_ofChars? hroot
  rw [Url.toChars_eq] at hspelled
  obtain ⟨rs, hdirs, hslash, hslashes⟩ := exists_dirs h hdot
  refine ⟨rs, hdirs, ?_, ?_⟩
  · rw [Path.ancestors_eq (ne_nil_of_ofChars? hroot), ← hspelled, dropSlash_append _ hpath, hslash]
    exact upward_stem hsound _
  · intro path hne hhead hurl hdata
    have hisEmpty : ¬ base.path.isEmpty = true := by simpa using hpath
    rw [joinChars_of_url hroot (fun hnil => absurd hnil hpath) hne hurl hdata, if_neg hisEmpty,
      joinPaths, if_neg hhead, hslashes]

theorem Tidy.exists_shape {root : List Char} (h : Tidy root) : ∃ stem rs, Shape root stem rs := by
  unfold Tidy at h
  split at h
  · rename_i hroot
    exact ⟨[], Shape.of_path hroot h.1 h.2⟩
  · rename_i base hroot
    by_cases hpath : base.path = []
    · rw [if_pos hpath] at h
      exact ⟨base.stem, _, Shape.of_host hroot hpath h⟩
    · rw [if_neg hpath] at h
      exact ⟨base.stem, Shape.of_url hroot hpath h.1 h.2⟩

/-! ## Names below a directory -/

/-- Whether a name leads down from a directory: it is in normal form, and neither the directory
itself nor a step up nor a path from the top. -/
structure Descends (name : List Char) : Prop where
  normal : normalizePath name = name
  notDot : name ≠ ['.']
  relative : name.head? ≠ some '/'
  notUp : (components name).head? ≠ some ['.', '.']

theorem Descends.exists_components {name : List Char} (h : Descends name) :
    ∃ ts, Rest ts ∧ resolve ts = (0, ts) ∧ name = joinComponents ts := by
  rcases exists_settled h.normal with hdot | ⟨ts, hts, hsettled, rfl⟩
  · exact absurd hdot h.notDot
  · have hup := h.notUp
    rw [components_joinComponents hts] at hup
    refine ⟨ts, ?_, resolve_of_settled hsettled hup, rfl⟩
    cases hts with
    | single hp => exact .last hp
    | cons hp hps =>
        refine .cons hp ?_ hps
        rintro rfl
        have hhead := h.relative
        rw [joinComponents_cons hps.ne_nil] at hhead
        exact hhead rfl

theorem steps_append {ts : List (List Char)} (hts : ts ≠ []) (k : Nat) :
    steps k ++ joinComponents ts = joinComponents (List.replicate k ['.', '.'] ++ ts) := by
  induction k with
  | zero => rfl
  | succ k ih =>
      rw [List.replicate_succ, List.cons_append, joinComponents_cons (by simp [hts]), ← ih]
      rfl

/-- Steps up lead out of as many directories, and the names after them down again. -/
theorem Dirs.resolved_way {ps ds ts : List (List Char)} (h : Dirs (ps ++ ds)) (hps : ps ≠ [])
    (hup : ['.', '.'] ∉ ds) (hts : resolve ts = (0, ts)) :
    resolved (ps ++ ds ++ (List.replicate ds.length ['.', '.'] ++ ts)) = ps ++ ts := by
  have hnames : ∀ d ∈ ds, Name d := by
    intro d hd
    refine ⟨h.inner d ?_, ?_, ?_⟩
    · rw [List.tail_append_of_ne_nil hps]
      exact List.mem_append_right _ hd
    · rintro rfl
      have hdot := dot_not_mem_resolved (ps ++ ds)
      rw [h.settled] at hdot
      exact hdot (List.mem_append_right _ hd)
    · rintro rfl
      exact hup hd
  have hsettled : resolved ps = ps := by
    have happend := resolved_append ps (resolve_of_forall fun d hd => (hnames d hd).2)
    rw [h.settled] at happend
    exact (List.append_cancel_right happend).symm
  have hsteps : resolve (ds ++ (List.replicate ds.length ['.', '.'] ++ ts)) = (0, ts) := by
    apply resolve_names hnames
    rw [resolve_replicate, hts]
  rw [List.append_assoc, resolved_append ps hsteps, hsettled]

theorem normalizeChars_joinComponents {ps : List (List Char)} (h : Separated ps) :
    normalizeChars (joinComponents ps) = normalizePath (joinComponents ps) := by
  rw [normalizeChars, ofChars?_joinComponents h]

/-- Components without dots that come after steps up are put behind the directory the steps lead
to. -/
theorem Shape.join_components {root stem : List Char} {ps ds ts : List (List Char)}
    (h : Shape root stem (ps ++ ds)) (hps : ps ≠ []) (hup : ['.', '.'] ∉ ds) (hts : Rest ts)
    (hresolve : resolve ts = (0, ts)) (hne : steps ds.length ++ joinComponents ts ≠ [])
    (hdata : isData (steps ds.length ++ joinComponents ts) = false) :
    joinChars root (steps ds.length ++ joinComponents ts) =
      stem ++ joinComponents ps ++ '/' :: joinComponents ts := by
  have hups := hts.steps ds.length
  have hseparated := h.dirs.append hups
  have hresolved := h.dirs.resolved_way hps hup hresolve
  have hjoined : joinComponents (ps ++ ts) ≠ [] := by
    rw [joinComponents_append hps hts.ne_nil]
    simp
  rw [steps_append hts.ne_nil] at hne hdata ⊢
  rw [h.join_eq hne hups.head?_ne (ofChars?_joinComponents hups.separated) hdata,
    ← joinComponents_append h.dirs.ne_nil hups.ne_nil, normalizeChars_joinComponents hseparated,
    normalizePath_joinComponents hseparated (by rwa [hresolved]), hresolved,
    joinComponents_append hps hts.ne_nil, List.append_assoc]

/-- **A name that leads up to a directory of a root and down again is below this directory.** -/
theorem Shape.join_way {root stem : List Char} {ps ds : List (List Char)}
    (h : Shape root stem (ps ++ ds)) (hps : ps ≠ []) (hup : ['.', '.'] ∉ ds) {rest : List Char}
    (hrest : Descends rest) (hdata : isData (steps ds.length ++ rest) = false) :
    joinChars root (steps ds.length ++ rest) = stem ++ joinComponents ps ++ '/' :: rest := by
  have hne : steps ds.length ++ rest ≠ [] :=
    List.append_ne_nil_of_right_ne_nil _ (ne_nil_of_normalizePath hrest.normal)
  obtain ⟨ts, hts, hresolve, rfl⟩ := hrest.exists_components
  exact h.join_components hps hup hts hresolve hne hdata

/-- The same for a directory of a root in normal form. No step up is taken back, because none is
among the directories that are left. -/
theorem joinChars_way {root dir rest : List Char} {before after : List (List Char)}
    (hroot : Tidy root) (h : ancestors root = before ++ dir :: after)
    (hup : ∀ b ∈ before, ¬ ['/', '.', '.'] <:+ b) (hrest : Descends rest)
    (hdata : isData (steps before.length ++ rest) = false) :
    joinChars root (steps before.length ++ rest) = dir ++ '/' :: rest := by
  obtain ⟨stem, rs, hshape⟩ := hroot.exists_shape
  rw [hshape.ancestors_eq] at h
  obtain ⟨before', rest', hsplit, rfl, hrest'⟩ := List.map_eq_append_iff.mp h
  obtain ⟨dir', after', rfl, rfl, rfl⟩ := List.map_eq_cons_iff.mp hrest'
  obtain ⟨ps, ds, rfl, hps, rfl, hlength, hlast⟩ :=
    exists_of_upward hshape.dirs.ne_nil hshape.dirs.noSlash hsplit
  have hds : ['.', '.'] ∉ ds := by
    intro hmem
    obtain ⟨b, hb, a, rfl⟩ := hlast _ hmem
    refine hup _ (List.mem_map_of_mem hb) ⟨stem ++ a, ?_⟩
    rw [List.append_assoc]
  rw [List.length_map, ← hlength] at hdata ⊢
  exact hshape.join_way hps hds hrest hdata

/-! ## Names that need no root -/

/-- Whether a name is not resolved against a root: a path from the top where the root is no URL,
a URL with a scheme, data, or any name below the current directory. -/
inductive StandsAlone (root name : List Char) : Prop
  | absolute : name.head? = some '/' → Url.ofChars? root = none → StandsAlone root name
  | url {u : Url} : Url.ofChars? name = some u → u.scheme ≠ [] → StandsAlone root name
  | data : Url.ofChars? name = none → isData name = true → StandsAlone root name
  | here : root = ['.'] → Descends name → isData name = false → StandsAlone root name

/-- Below the current directory a name stays as it is. -/
theorem joinChars_dot {name : List Char} (h : Descends name) (hdata : isData name = false) :
    joinChars ['.'] name = name := by
  have hne := ne_nil_of_normalizePath h.normal
  obtain ⟨ts, hts, hresolve, rfl⟩ := h.exists_components
  have hseparated : Separated (['.'] :: ts) := .cons (by decide) hts
  have hresolved : resolved (['.'] :: ts) = ts := by
    have happend := resolved_append [['.']] hresolve
    exact happend
  have hjoined : joinComponents (['.'] :: ts) = '.' :: '/' :: joinComponents ts :=
    joinComponents_cons hts.ne_nil
  have hnormal := normalizePath_joinComponents hseparated (by rwa [hresolved])
  rw [← normalizeChars_joinComponents hseparated, hresolved, hjoined] at hnormal
  rw [joinChars_of_path (by decide) (List.cons_ne_nil _ _) hne h.relative
    (ofChars?_joinComponents hts.separated) hdata]
  exact hnormal

theorem ofChars?_orDot (cs : List Char) : Url.ofChars? (orDot cs) = Url.ofChars? cs := by
  cases cs with
  | nil => decide
  | cons c cs => rfl

/-- **A name that stands alone is not changed by a root.** -/
theorem StandsAlone.join_eq {root name : List Char} (h : StandsAlone root name) :
    joinChars root name = name := by
  cases h with
  | absolute hhead hroot =>
      have hne : name ≠ [] := by
        rintro rfl
        cases hhead
      simp only [joinChars, orDot_of_ne hne, ofChars?_orDot, hroot]
      cases Url.ofChars? name with
      | some u => rfl
      | none =>
          simp only [joinPaths, hhead, if_true]
          split_ifs <;> rfl
  | @url u hname hscheme =>
      have hne : name ≠ [] := by
        rintro rfl
        cases hname
      have hisEmpty : ¬ u.scheme.isEmpty = true := by simpa using hscheme
      simp only [joinChars, orDot_of_ne hne, hname]
      cases Url.ofChars? (orDot root) with
      | none => rfl
      | some base => simp only [if_neg hisEmpty]
  | data hname hdata =>
      have hne : name ≠ [] := by
        rintro rfl
        cases hdata
      simp only [joinChars, orDot_of_ne hne, hname, hdata, if_true]
  | here hroot hname hdata =>
      rw [hroot]
      exact joinChars_dot hname hdata

end Path

namespace SourceRoot

open SourceMap.Path

/-- Whether a name that is resolved against a root can be made relative to the root again: without
a root, where it leads up to a directory of a root in normal form and down from there, or where it
needs no root and is in none of its directories. -/
inductive Reversible : Option String → String → Prop
  | bare (name : String) : Reversible none name
  /-- From the root `before.length` steps up to `dir`, which no lower directory stands in for, and
  from there down to `rest`. -/
  | way {root name : String} {before after : List (List Char)} {dir rest : List Char} :
      Tidy root.toList → ancestors root.toList = before ++ dir :: after →
      (∀ b ∈ before, ¬ ['/', '.', '.'] <:+ b ∧ below? b (dir ++ '/' :: rest) = none) →
      Descends rest → name.toList = steps before.length ++ rest →
      isData name.toList = false → Reversible (some root) name
  /-- A name that no directory of the root is on the way to. -/
  | apart {root name : String} : StandsAlone root.toList name.toList →
      (∀ dir ∈ ancestors root.toList, below? dir name.toList = none) → Reversible (some root) name

/-- A name below a root in normal form is reversible. -/
theorem Reversible.below {root name : String} (hroot : Tidy root.toList)
    (hname : Descends name.toList) (hdata : isData name.toList = false) :
    Reversible (some root) name := by
  have hancestors : ∃ dir after, ancestors root.toList = [] ++ dir :: after := ⟨_, _, rfl⟩
  obtain ⟨dir, after, h⟩ := hancestors
  exact .way hroot h (fun b hb => absurd hb List.not_mem_nil) hname rfl hdata

/-- **What is reversible comes back.** -/
theorem Reversible.relativize_resolve {root : Option String} {name : String}
    (h : Reversible root name) : relativize root (resolve root name) = name := by
  cases h with
  | bare => rfl
  | @way root name before after dir rest hroot hancestors hbefore hrest hname hdata =>
      rw [hname] at hdata
      have hjoin := joinChars_way hroot hancestors (fun b hb => (hbefore b hb).1) hrest hdata
      have hrelative := relativeChars_of_ancestors hancestors fun b hb => (hbefore b hb).2
      simp only [resolve, relativize, join, relative, String.toList_ofList, hname, hjoin, hrelative]
      rw [← hname, String.ofList_toList]
  | apart hjoin hdirs =>
      simp only [resolve, relativize, join, relative, hjoin.join_eq, String.ofList_toList,
        relativeChars_of_forall hdirs]

end SourceRoot

end SourceMap

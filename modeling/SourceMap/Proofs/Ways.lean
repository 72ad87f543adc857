import Mathlib
import SourceMap.Proofs.SourceRoot

/-!
# Ways there and back

Following the way from a root to a path leads to the path: the way climbs to the lowest directory of
the root that holds the path and goes down from there, and joining resolves the steps up again
(`Shape.join_components`). Among absolute paths in normal form there is one it does not lead to,
the root itself with a slash behind it (`join_relative_iff`).

The other way round, a name in normal form that goes down is put right below the root, from where
the way to it is the name again (`relative_join`).
-/

set_option autoImplicit false

namespace SourceMap.Path

/-! ## Data -/

theorem isData_of_not_prefix {cs : List Char} (h : ¬ "data:".toList <+: cs) :
    isData cs = false := by
  unfold isData
  split
  · rfl
  · rename_i rest heq
    rw [List.isPrefixOf?_eq_some_iff_append_eq] at heq
    exact absurd ⟨rest, heq⟩ h

/-- Characters without a slash that components start with are those of the first one. -/
theorem prefix_of_prefix_joinComponents {cs p : List Char} {ps : List (List Char)} (hcs : '/' ∉ cs)
    (h : cs <+: joinComponents (p :: ps)) : cs <+: p := by
  by_cases hps : ps = []
  · rwa [hps, joinComponents_singleton] at h
  · rw [joinComponents_cons hps, List.append_cons] at h
    rcases List.prefix_or_prefix_of_prefix h (List.prefix_append (p ++ ['/']) _) with hle | hge
    · rcases List.prefix_concat_iff.mp hle with heq | hle
      · exact absurd (by simp [heq]) hcs
      · exact hle
    · exact absurd (hge.subset (by simp)) hcs

/-- A name that climbs is no data, and one that goes down is none if its first component does not
start like data. -/
theorem isData_steps {p : List Char} {ps : List (List Char)} (hp : ¬ "data:".toList <+: p)
    (k : Nat) : isData (steps k ++ joinComponents (p :: ps)) = false := by
  apply isData_of_not_prefix
  cases k with
  | zero => exact fun h => hp (prefix_of_prefix_joinComponents (by decide) h)
  | succ k =>
      rintro ⟨rest, heq⟩
      have hhead : (steps (k + 1) ++ joinComponents (p :: ps)).head? = some '.' := rfl
      rw [← heq] at hhead
      exact absurd hhead (by simp)

/-! ## Normal paths -/

/-- Whether a name is a path in normal form. -/
structure NormalPath (s : String) : Prop where
  notUrl : Url.parse? s = none
  normal : normalize s = s

theorem NormalPath.normalizePath_eq {s : String} (h : NormalPath s) :
    normalizePath s.toList = s.toList := by
  rw [← normalizeChars_of_none h.notUrl]
  have hnormal := congrArg String.toList h.normal
  rwa [normalize, String.toList_ofList] at hnormal

theorem Rest.of_append {ps qs : List (List Char)} (h : Rest (ps ++ qs)) (hqs : qs ≠ []) :
    Rest qs := by
  induction ps with
  | nil => exact h
  | cons p ps ih =>
      rw [List.cons_append] at h
      generalize hrest : ps ++ qs = rest at h ih
      cases h with
      | last => exact absurd (List.append_eq_nil_iff.mp hrest).2 hqs
      | cons _ _ h => exact ih h

/-- **An absolute path in normal form is a slash and names behind it**, the last of which may be
empty. -/
theorem NormalPath.exists_names {s : String} (h : NormalPath s)
    (hslash : s.toList.head? = some '/') :
    ∃ qs, Rest qs ∧ (∀ q ∈ qs, q ≠ ['.'] ∧ q ≠ ['.', '.']) ∧
      s.toList = joinComponents ([] :: qs) := by
  rcases exists_settled h.normalizePath_eq with hdot | ⟨ps, hps, hsettled, heq⟩
  · rw [hdot] at hslash
    exact absurd hslash (by decide)
  · rw [heq] at hslash
    cases hps with
    | single hp =>
        rw [joinComponents_singleton] at hslash
        exact absurd (List.mem_of_mem_head? hslash) hp
    | @cons p qs hp hqs =>
        rw [joinComponents_cons hqs.ne_nil] at hslash
        cases p with
        | cons c p =>
            obtain rfl : c = '/' := Option.some.inj hslash
            exact absurd List.mem_cons_self hp
        | nil =>
            -- nothing is resolved of what stands behind the slash
            rw [resolved_nil_cons] at hsettled
            have hkept : (resolve qs).2 = qs := (List.cons.inj hsettled).2
            refine ⟨qs, hqs, fun q hq => ?_, heq⟩
            rw [← hkept] at hq
            exact (mem_resolve hq).2

/-- What stands behind a directory in a row of components are further components. -/
theorem exists_of_joinComponents_eq {ps qs : List (List Char)} {rest : List Char}
    (hps : ps ≠ []) (hps' : ∀ p ∈ ps, '/' ∉ p) (hqs : qs ≠ []) (hqs' : ∀ q ∈ qs, '/' ∉ q)
    (h : joinComponents qs = joinComponents ps ++ '/' :: rest) :
    ∃ ts, qs = ps ++ ts ∧ ts ≠ [] ∧ rest = joinComponents ts := by
  refine ⟨rest.splitOn '/', ?_, List.splitOn_ne_nil _ _, (List.intercalate_splitOn _).symm⟩
  have hsplit := congrArg (List.splitOn '/') h
  rwa [List.splitOn_append_cons_self, joinComponents, joinComponents,
    List.splitOn_intercalate _ hqs' hqs, List.splitOn_intercalate _ hps' hps] at hsplit

/-! ## Roots from the top -/

theorem Shape.dropSlash_eq {root stem : List Char} {rs : List (List Char)}
    (h : Shape root stem rs) (hne : root ≠ []) : dropSlash root = stem ++ joinComponents rs := by
  have hancestors := h.ancestors_eq
  rw [Path.ancestors_eq hne, upward, upward, List.map_cons] at hancestors
  exact (List.cons.inj hancestors).1

/-- Without its trailing slash an absolute path is empty or still absolute. -/
theorem dropSlash_cases {cs : List Char} (h : cs.head? = some '/') :
    cs = ['/'] ∨ ∃ rest, dropSlash cs = '/' :: rest := by
  cases cs with
  | nil => cases h
  | cons c cs =>
      obtain rfl : c = '/' := Option.some.inj h
      cases cs with
      | nil => exact Or.inl rfl
      | cons d cs =>
          refine Or.inr ?_
          rw [dropSlash]
          split_ifs
          · exact ⟨_, List.dropLast_cons_cons⟩
          · exact ⟨_, rfl⟩

/-- No step up is among the directories of an absolute path. -/
theorem Dirs.not_mem_up {rs : List (List Char)} (h : Dirs rs)
    (htop : ∀ c ∈ (joinComponents rs).head?, c = '/') : ['.', '.'] ∉ rs := by
  cases rs with
  | nil => exact List.not_mem_nil
  | cons r rs =>
      have hr : r = [] := by
        cases r with
        | nil => rfl
        | cons c r =>
            have hhead : (joinComponents ((c :: r) :: rs)).head? = some c := by
              by_cases hrs : rs = []
              · rw [hrs, joinComponents_singleton]
                rfl
              · rw [joinComponents_cons hrs]
                rfl
            obtain rfl : c = '/' := htop c hhead
            exact absurd List.mem_cons_self (h.noSlash _ List.mem_cons_self)
      have hsettled := h.settled
      rw [hr, resolved_nil_cons] at hsettled
      have hkept : (resolve rs).2 = rs := (List.cons.inj hsettled).2
      intro hmem
      rcases List.mem_cons.mp hmem with heq | hmem
      · rw [hr] at heq
        cases heq
      · rw [← hkept] at hmem
        exact (mem_resolve hmem).2.2 rfl

/-- Only the top is a root from the top that comes to nothing without its trailing slash. -/
theorem Shape.nil_iff {root : List Char} {rs : List (List Char)} (h : Shape root [] rs)
    (hslash : root.head? = some '/') : joinComponents rs = [] ↔ root = ['/'] := by
  have hdrop : dropSlash root = joinComponents rs := h.dropSlash_eq (by rintro rfl; cases hslash)
  rw [← hdrop]
  rcases dropSlash_cases hslash with rfl | ⟨rest, hrest⟩
  · exact iff_of_true rfl rfl
  · refine iff_of_false (by simp [hrest]) ?_
    rintro rfl
    cases hrest

theorem Shape.not_mem_up {root : List Char} {rs : List (List Char)} (h : Shape root [] rs)
    (hslash : root.head? = some '/') : ['.', '.'] ∉ rs := by
  have hdrop : dropSlash root = joinComponents rs := h.dropSlash_eq (by rintro rfl; cases hslash)
  apply h.dirs.not_mem_up
  rw [← hdrop]
  rcases dropSlash_cases hslash with rfl | ⟨rest, hrest⟩
  · rintro c ⟨⟩
  · rw [hrest]
    rintro c ⟨⟩
    rfl

/-! ## There -/

/-- A path lies in none of the directories of a root, or the way to it starts from the lowest of
them that holds it. -/
theorem relativeChars_cases (root path : List Char) :
    (∀ dir ∈ ancestors root, below? dir path = none) ∨
    ∃ before dir after rest, ancestors root = before ++ dir :: after ∧
      (∀ b ∈ before, below? b path = none) ∧ path = dir ++ '/' :: rest := by
  cases hfind : (ancestors root).find? fun dir => (below? dir path).isSome with
  | none =>
      rw [List.find?_eq_none] at hfind
      exact Or.inl fun dir hdir => Option.not_isSome_iff_eq_none.mp (hfind dir hdir)
  | some dir =>
      obtain ⟨hbelow, before, after, hsplit, hbefore⟩ := List.find?_eq_some_iff_append.mp hfind
      obtain ⟨rest, hrest⟩ := Option.isSome_iff_exists.mp hbelow
      refine Or.inr ⟨before, dir, after, rest, hsplit, fun b hb => ?_, below?_eq_some_iff.mp hrest⟩
      have hnone := hbefore b hb
      rwa [Bool.not_eq_true', Option.isSome_eq_false_iff, Option.isNone_iff_eq_none] at hnone

/-- The empty name leads to the root without its trailing slash, or to the top. -/
theorem Shape.join_nil {root stem : List Char} {rs : List (List Char)} (h : Shape root stem rs) :
    joinChars root [] = stem ++ (if joinComponents rs = [] then ['/'] else joinComponents rs) := by
  have hdot : joinChars root [] = joinChars root ['.'] := rfl
  rw [hdot, h.join_eq (List.cons_ne_nil _ _) (by decide) (by decide) (by decide)]
  split_ifs with hnil
  · have htop : normalizeChars ['/', '.'] = ['/'] := by decide
    rw [hnil, List.nil_append, htop]
  · have hseparated : Separated (rs ++ [['.']]) := h.dirs.append (.last (by decide))
    have hresolved : resolved (rs ++ [['.']]) = rs := by
      have happend : resolved (rs ++ [['.']]) = resolved rs ++ [] := resolved_append rs rfl
      rwa [h.dirs.settled, List.append_nil] at happend
    have hjoined : joinComponents rs ++ ['/', '.'] = joinComponents (rs ++ [['.']]) := by
      rw [joinComponents_append h.dirs.ne_nil (List.cons_ne_nil _ _), joinComponents_singleton]
    rw [hjoined, normalizeChars_joinComponents hseparated,
      normalizePath_joinComponents hseparated (by rwa [hresolved]), hresolved]

/-- A path below a directory of a root has the components of this directory and some more. -/
theorem Shape.exists_below {root dir rest : List Char} {rs qs before after : List (List Char)}
    (h : Shape root [] rs) (hancestors : ancestors root = before ++ dir :: after) (hqs : qs ≠ [])
    (hslash : ∀ q ∈ qs, '/' ∉ q) (hsplit : joinComponents qs = dir ++ '/' :: rest) :
    ∃ ps ds ts, rs = ps ++ ds ∧ qs = ps ++ ts ∧ ps ≠ [] ∧ ts ≠ [] ∧ dir = joinComponents ps ∧
      rest = joinComponents ts ∧ ds.length = before.length := by
  have hupward := h.ancestors_eq
  simp only [List.nil_append, List.map_id'] at hupward
  obtain ⟨ps, ds, hrs, hps, rfl, hlength, -⟩ :=
    exists_of_upward h.dirs.ne_nil h.dirs.noSlash (hupward.symm.trans hancestors)
  have hps' : ∀ p ∈ ps, '/' ∉ p := fun p hp =>
    h.dirs.noSlash p (by rw [hrs]; exact List.mem_append_left _ hp)
  obtain ⟨ts, hqs, hts, hrest⟩ := exists_of_joinComponents_eq hps hps' hqs hslash hsplit
  exact ⟨ps, ds, ts, hrs, hqs, hps, hts, rfl, hrest, hlength⟩

/-- The way from a root to a path below one of its directories is empty just if the path is the root
with a slash behind it. -/
theorem way_nil_iff {root dir rest : List Char} {before after : List (List Char)} (hne : root ≠ [])
    (hancestors : ancestors root = before ++ dir :: after)
    (hbefore : ∀ b ∈ before, below? b (dir ++ '/' :: rest) = none) :
    steps before.length ++ rest = [] ↔ dir ++ '/' :: rest = dropSlash root ++ ['/'] := by
  have hfirst := hancestors.symm.trans (ancestors_eq hne)
  cases before with
  | nil =>
      obtain rfl : dir = dropSlash root := (List.cons.inj hfirst).1
      have hempty : steps ([] : List (List Char)).length ++ rest = rest := rfl
      rw [hempty, List.append_cancel_left_eq, List.cons.injEq, and_iff_right rfl]
  | cons b before =>
      obtain rfl : b = dropSlash root := (List.cons.inj hfirst).1
      refine iff_of_false (fun hnil => List.cons_ne_nil _ _ hnil) fun heq => ?_
      have hbelow := hbefore _ List.mem_cons_self
      rw [below?_eq_some_iff.mpr heq] at hbelow
      cases hbelow

/-- Steps up from a root from the top and names behind them lead to the names below the directory
that is reached, but no names lead to the root itself, which has no slash behind it if it is not the
top. -/
theorem Shape.join_climb_iff {root : List Char} {ps ds ts : List (List Char)}
    (h : Shape root [] (ps ++ ds)) (hslash : root.head? = some '/') (hps : ps ≠ []) (hts : Rest ts)
    (hdots : ∀ t ∈ ts, t ≠ ['.'] ∧ t ≠ ['.', '.']) (hdata : ∀ t ∈ ts, ¬ "data:".toList <+: t) :
    joinChars root (steps ds.length ++ joinComponents ts) =
        joinComponents ps ++ '/' :: joinComponents ts ↔
      (steps ds.length ++ joinComponents ts = [] → root = ['/']) := by
  by_cases hway : steps ds.length ++ joinComponents ts = []
  · obtain ⟨hsteps, hnames⟩ := List.append_eq_nil_iff.mp hway
    obtain rfl : ds = [] := by
      cases ds with
      | nil => rfl
      | cons d ds => cases hsteps
    have htop := h.nil_iff hslash
    rw [List.append_nil] at htop
    rw [hway, h.join_nil, hnames, List.append_nil, List.nil_append]
    split_ifs with hnil
    · exact iff_of_true (by rw [hnil]; rfl) fun _ => htop.mp hnil
    · refine iff_of_false (fun heq => ?_) fun himp => hnil (htop.mpr (himp rfl))
      exact absurd (List.self_eq_append_right.mp heq) (List.cons_ne_nil _ _)
  · refine iff_of_true ?_ fun hnil => absurd hnil hway
    obtain ⟨t, ts, rfl⟩ := List.exists_cons_of_ne_nil hts.ne_nil
    have hup : ['.', '.'] ∉ ds := fun hmem =>
      h.not_mem_up hslash (List.mem_append_right _ hmem)
    exact h.join_components hps hup hts (resolve_of_forall hdots) hway
      (isData_steps (hdata t List.mem_cons_self) _)

/-- The way to an absolute path leads there, unless it is empty below a root that is not the top. -/
theorem joinChars_relativeChars_iff {root : List Char} {qs : List (List Char)}
    (hurl : Url.ofChars? root = none) (hroot : normalizePath root = root)
    (hslash : root.head? = some '/') (hqs : Rest qs) (hdots : ∀ q ∈ qs, q ≠ ['.'] ∧ q ≠ ['.', '.'])
    (hdata : ∀ q ∈ qs, ¬ "data:".toList <+: q) :
    joinChars root (relativeChars root (joinComponents ([] :: qs))) = joinComponents ([] :: qs) ↔
      (joinComponents ([] :: qs) = dropSlash root ++ ['/'] → root = ['/']) := by
  have hne := ne_nil_of_normalizePath hroot
  rcases relativeChars_cases root (joinComponents ([] :: qs)) with
    hnone | ⟨before, dir, after, rest, hancestors, hbefore, hsplit⟩
  · -- a path in no directory of the root stays as it is
    have hhead : (joinComponents ([] :: qs)).head? = some '/' := by
      rw [joinComponents_cons hqs.ne_nil]
      rfl
    rw [relativeChars_of_forall hnone]
    refine iff_of_true (StandsAlone.absolute hhead hurl).join_eq fun heq => ?_
    have hbelow := hnone (dropSlash root) (by rw [ancestors_eq hne]; exact List.mem_cons_self)
    rw [below?_eq_some_iff.mpr heq] at hbelow
    cases hbelow
  · obtain ⟨rs, hshape⟩ := Shape.of_path hurl hroot (by rintro rfl; exact absurd hslash (by decide))
    have hseparated : Separated ([] :: qs) := .cons List.not_mem_nil hqs
    obtain ⟨ps, ds, ts, rfl, hcomponents, hps, hts, rfl, rfl, hlength⟩ :=
      hshape.exists_below hancestors (List.cons_ne_nil _ _) hseparated.forall.1 hsplit
    -- what is below the directory is among the names of the path
    obtain ⟨p, ps, rfl⟩ := List.exists_cons_of_ne_nil hps
    obtain ⟨rfl, rfl⟩ := List.cons.inj hcomponents
    have hclimb := hshape.join_climb_iff hslash hps (hqs.of_append hts)
      (fun t ht => hdots t (List.mem_append_right ps ht))
      fun t ht => hdata t (List.mem_append_right ps ht)
    rw [hsplit] at hbefore ⊢
    rw [relativeChars_of_ancestors hancestors hbefore, ← way_nil_iff hne hancestors hbefore,
      ← hlength]
    exact hclimb

/-- **From a root to an absolute path and there.** Between absolute paths in normal form without
data the way from one of them leads to the other, unless this is the first with one slash behind it
and the first is not the top. -/
theorem join_relative_iff {root path : String} (hroot : NormalPath root)
    (hrootSlash : root.toList.head? = some '/') (hpath : NormalPath path)
    (hpathSlash : path.toList.head? = some '/')
    (hdata : ∀ p ∈ components path.toList, ¬ "data:".toList <+: p) :
    join root (relative root path) = path ↔
      (path.toList = dropSlash root.toList ++ ['/'] → root = "/") := by
  obtain ⟨qs, hqs, hdots, hspelled⟩ := hpath.exists_names hpathSlash
  have hcomponents : components path.toList = [] :: qs := by
    rw [hspelled, components_joinComponents (.cons List.not_mem_nil hqs)]
  rw [hcomponents] at hdata
  have hchars := joinChars_relativeChars_iff hroot.notUrl hroot.normalizePath_eq hrootSlash hqs
    hdots fun q hq => hdata q (List.mem_cons_of_mem _ hq)
  rw [← hspelled] at hchars
  rw [join, relative, String.toList_ofList, ← String.toList_inj, String.toList_ofList, hchars,
    ← String.toList_inj]
  rfl

/-- A sibling whose name starts like that of the root, and the directory above with its slash. -/
theorem join_relative_iff_sibling :
    NormalPath "/the/root/" ∧ NormalPath "/the/rootone.js" ∧ NormalPath "/the/" ∧
    relative "/the/root/" "/the/rootone.js" = "../rootone.js" ∧
    join "/the/root/" (relative "/the/root/" "/the/rootone.js") = "/the/rootone.js" ∧
    join "/the/root/" (relative "/the/root/" "/the/") = "/the/" := by
  have hroot : NormalPath "/the/root/" := ⟨by decide +kernel, by decide +kernel⟩
  have hsibling : NormalPath "/the/rootone.js" := ⟨by decide +kernel, by decide +kernel⟩
  have habove : NormalPath "/the/" := ⟨by decide +kernel, by decide +kernel⟩
  refine ⟨hroot, hsibling, habove, by decide +kernel, ?_, ?_⟩
  · refine (join_relative_iff hroot (by decide) hsibling (by decide) (by decide)).mpr fun heq => ?_
    exact absurd heq (by decide)
  · refine (join_relative_iff hroot (by decide) habove (by decide) (by decide)).mpr fun heq => ?_
    exact absurd heq (by decide)

/-- The root with a slash behind it is not reached: its way is empty. -/
example : relative "/a" "/a/" = "" ∧ join "/a" "" = "/a" := by decide +kernel

/-! ## And back -/

/-- A name that goes down does not start with the current directory. -/
theorem Descends.below?_dot {name : List Char} (h : Descends name) : below? ['.'] name = none := by
  cases hbelow : below? ['.'] name with
  | none => rfl
  | some rest =>
      rw [below?_eq_some_iff] at hbelow
      obtain ⟨ts, hts, hresolve, rfl⟩ := h.exists_components
      have hdot : joinComponents [['.']] = ['.'] := joinComponents_singleton _
      rw [← hdot] at hbelow
      obtain ⟨rest', rfl, -⟩ := exists_of_joinComponents_eq (List.cons_ne_nil _ _) (by decide)
        hts.ne_nil hts.forall.1 hbelow
      -- no dot is left in what is resolved
      have hmem : ['.'] ∈ (resolve ([['.']] ++ rest')).2 := by
        rw [hresolve]
        exact List.mem_cons_self
      exact absurd rfl (mem_resolve hmem).2.1

/-- **To a name below a root and back.** A name in normal form that goes down is put right below a
root in normal form, or stays as it is in the current directory, and the way from the root to where
it leads is the name. -/
theorem relative_join {root name : String} (hroot : NormalPath root) (hname : NormalPath name)
    (hslash : name.toList.head? ≠ some '/') (hdot : name ≠ ".")
    (hup : (components name.toList).head? ≠ some ['.', '.'])
    (hdata : ¬ "data:".toList <+: name.toList) :
    (join root name).toList =
      (if root = "." then name.toList else dropSlash root.toList ++ '/' :: name.toList) ∧
    relative root (join root name) = name := by
  have hdescends : Descends name.toList :=
    ⟨hname.normalizePath_eq, fun heq => hdot (String.toList_inj.mp heq), hslash, hup⟩
  have hnoData := isData_of_not_prefix hdata
  by_cases hhere : root = "."
  · subst hhere
    have hbelow : ∀ dir ∈ ancestors ".".toList, below? dir name.toList = none := by
      intro dir hdir
      obtain rfl : dir = ['.'] := List.mem_singleton.mp hdir
      exact hdescends.below?_dot
    rw [if_pos rfl, join, String.toList_ofList]
    exact ⟨joinChars_dot hdescends hnoData,
      (SourceRoot.Reversible.apart (.here rfl hdescends hnoData) hbelow).relativize_resolve⟩
  · have htidy : Tidy root.toList := by
      rw [Tidy, show Url.ofChars? root.toList = none from hroot.notUrl]
      exact ⟨hroot.normalizePath_eq, fun heq => hhere (String.toList_inj.mp heq)⟩
    have hlowest : ∃ above, ancestors root.toList = [] ++ dropSlash root.toList :: above :=
      ⟨_, ancestors_eq (ne_nil_of_normalizePath hroot.normalizePath_eq)⟩
    obtain ⟨above, hlowest⟩ := hlowest
    rw [if_neg hhere, join, String.toList_ofList]
    exact ⟨joinChars_way htidy hlowest (fun b hb => absurd hb List.not_mem_nil) hdescends hnoData,
      (SourceRoot.Reversible.below htidy hdescends hnoData).relativize_resolve⟩

/-- A root that starts with a step up and has a slash behind it, and the current directory. -/
theorem relative_join_roots :
    NormalPath "../a/" ∧ NormalPath "." ∧ NormalPath "b/c.js" ∧
    join "../a/" "b/c.js" = "../a/b/c.js" ∧
    relative "../a/" (join "../a/" "b/c.js") = "b/c.js" ∧
    join "." "b/c.js" = "b/c.js" ∧ relative "." (join "." "b/c.js") = "b/c.js" := by
  have habove : NormalPath "../a/" := ⟨by decide +kernel, by decide +kernel⟩
  have hhere : NormalPath "." := ⟨by decide +kernel, by decide +kernel⟩
  have hname : NormalPath "b/c.js" := ⟨by decide +kernel, by decide +kernel⟩
  have hback {root : String} (hroot : NormalPath root) :=
    relative_join hroot hname (by decide) (by decide) (by decide) (by decide)
  obtain ⟨hjoin, hrelative⟩ := hback habove
  obtain ⟨hjoin', hrelative'⟩ := hback hhere
  refine ⟨habove, hhere, hname, String.toList_inj.mp ?_, hrelative, String.toList_inj.mp ?_,
    hrelative'⟩
  · rw [hjoin, if_neg (by decide)]
    decide
  · rw [hjoin', if_pos rfl]

end SourceMap.Path

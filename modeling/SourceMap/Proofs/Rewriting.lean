import Mathlib
import SourceMap.Proofs.Operations
import SourceMap.Proofs.Rebuilding

/-!
# Builders taken through maps in place

A builder can be taken through a map with its mappings changed where they are: the places that the
map has for some of them are gathered with the indices of these mappings, in a second pass each
mapping whose index comes next is moved, and contents are copied after that. This comes to the same
as `applyMap` (`applyInPlace_eq`). So nothing is half done: the lookups come before all changes, and
contents can be copied from any map.
-/

set_option autoImplicit false

namespace SourceMap.Builder

/-! ## In place -/

/-- The places that a map has for mappings, with the indices of these mappings. -/
def gather (m : LoadedMap) (file : String) :
    (index : Nat) → List Mapping → Except Error (List (Nat × OriginalPosition))
  | _, [] => .ok []
  | index, a :: as => do
    let answer ← lookUp m file a
    let found ← gather m file (index + 1) as
    match answer with
    | none => return found
    | some answer => return (index, answer) :: found

/-- Takes the next place if it is that of an index. -/
def takeAt (index : Nat) :
    List (Nat × OriginalPosition) → Option OriginalPosition × List (Nat × OriginalPosition)
  | [] => (none, [])
  | (next, answer) :: found =>
    if next = index then (some answer, found) else (none, (next, answer) :: found)

/-- Moves the mappings from an index on to the places found for them, and registers their sources
and names. -/
def rewrite (rename : String → String) : (index : Nat) → List (Nat × OriginalPosition) →
    (sources names : StringTable) → List Mapping → List Mapping × StringTable × StringTable
  | _, _, sources, names, [] => ([], sources, names)
  | index, found, sources, names, a :: as =>
    let (answer, found) := takeAt index found
    let moved := move rename a answer
    let (rest, sources, names) := rewrite rename (index + 1) found
      (registerSource sources moved) (registerName names moved) as
    (moved :: rest, sources, names)

/-- Takes over contents one by one. What has been taken over stays if a later content is refused. -/
def copyInPlace (m : LoadedMap) (rename : String → String) :
    List String → Builder → Except Error Unit × Builder
  | [], b => (.ok (), b)
  | source :: sources, b =>
    match m.contentFor source true with
    | .error e => (.error e, b)
    | .ok none => copyInPlace m rename sources b
    | .ok (some content) =>
      copyInPlace m rename sources (b.setContent (rename source) (some content))

/-- Takes a builder through a map and tells whether this was refused. What was changed before a
refusal stays changed. -/
def applyInPlace (b : Builder) (m : LoadedMap) (file path : Option String) :
    Except Error Unit × Builder :=
  match file.or m.file with
  | none => (.error .missingFile, b)
  | some given =>
    match gather m (SourceRoot.relativize b.root given) 0 b.mappings with
    | .error e => (.error e, b)
    | .ok found =>
      let rename source := SourceRoot.relativize b.root (rebase path source)
      let (moved, sources, names) := rewrite rename 0 found .empty .empty b.mappings
      copyInPlace m (rebase path) m.sourceNames
        { b with sources, names, log := b.log.replace moved }

/-! ## Places and their indices -/

/-- The places among the answers from an index on, with their indices. -/
def numbered : (index : Nat) → List (Option OriginalPosition) → List (Nat × OriginalPosition)
  | _, [] => []
  | index, none :: answers => numbered (index + 1) answers
  | index, some answer :: answers => (index, answer) :: numbered (index + 1) answers

theorem gather_eq (m : LoadedMap) (file : String) (as : List Mapping) : ∀ index : Nat,
    gather m file index as = (as.mapM (lookUp m file)).map (numbered index) := by
  induction as with
  | nil => exact fun _ => rfl
  | cons a as ih =>
      intro index
      rw [gather, List.mapM_cons]
      cases lookUp m file a with
      | error e => rfl
      | ok answer =>
          rw [ok_bind, ok_bind, ih]
          cases as.mapM (lookUp m file) with
          | error e => rfl
          | ok answers => cases answer <;> rfl

theorem le_of_mem_numbered {answers : List (Option OriginalPosition)} :
    ∀ {index : Nat}, ∀ p ∈ numbered index answers, index ≤ p.1 := by
  induction answers with
  | nil => exact fun p hp => absurd hp List.not_mem_nil
  | cons answer answers ih =>
      intro index p hp
      have hrest (hmem : p ∈ numbered (index + 1) answers) : index ≤ p.1 :=
        Nat.le_of_succ_le (ih p hmem)
      cases answer with
      | none => exact hrest hp
      | some answer =>
          rcases List.mem_cons.mp hp with rfl | hmem
          · exact Nat.le_refl _
          · exact hrest hmem

/-- **The next place is that of an index just if one was found there.** -/
theorem takeAt_numbered (index : Nat) (answer : Option OriginalPosition)
    (answers : List (Option OriginalPosition)) :
    takeAt index (numbered index (answer :: answers)) = (answer, numbered (index + 1) answers) := by
  cases answer with
  | some answer => simp [numbered, takeAt]
  | none =>
      have hle : ∀ p ∈ numbered (index + 1) answers, index + 1 ≤ p.1 := le_of_mem_numbered
      rw [numbered]
      -- the places that are left have later indices
      cases hfound : numbered (index + 1) answers with
      | nil => rfl
      | cons p found =>
          rw [hfound] at hle
          have hne : p.1 ≠ index := by
            have hlt := hle p List.mem_cons_self
            omega
          simp [takeAt, hne]

/-- **Each mapping is moved to the place that was found for it**, and is registered when it is. -/
theorem rewrite_numbered {rename : String → String} {as : List Mapping}
    {answers : List (Option OriginalPosition)} (h : as.length = answers.length) :
    ∀ {index : Nat} {sources names : StringTable},
      rewrite rename index (numbered index answers) sources names as =
        ((List.zipWith (move rename) as answers),
          (List.zipWith (move rename) as answers).foldl registerSource sources,
          (List.zipWith (move rename) as answers).foldl registerName names) := by
  induction as generalizing answers with
  | nil => exact rfl
  | cons a as ih =>
      cases answers with
      | nil => cases h
      | cons answer answers =>
          intro index sources names
          rw [rewrite, takeAt_numbered]
          dsimp only
          rw [ih (Nat.succ.inj h)]
          rfl

theorem copyInPlace_eq {m : LoadedMap} {rename : String → String} {sources : List String} :
    ∀ {b b' : Builder}, b.copyContents m rename sources = .ok b' →
      copyInPlace m rename sources b = (.ok (), b') := by
  induction sources with
  | nil =>
      intro b b' h
      cases h
      rfl
  | cons source sources ih =>
      intro b b' h
      rw [copyContents] at h
      rw [copyInPlace]
      cases hcontent : m.contentFor source true with
      | error e =>
          rw [hcontent] at h
          cases h
      | ok content =>
          rw [hcontent] at h
          cases content with
          | none => exact ih h
          | some text => exact ih h

/-- **Nothing is half done in place.** -/
theorem applyInPlace_eq (b : Builder) (m : LoadedMap) (file path : Option String) :
    b.applyInPlace m file path = b.perform (.applyMap m file path) := by
  rw [applyInPlace, perform, applyMap]
  cases file.or m.file with
  | none => rfl
  | some given =>
      dsimp only
      rw [gather_eq]
      cases hfound : b.mappings.mapM (lookUp m (SourceRoot.relativize b.root given)) with
      | error e => rfl
      | ok answers =>
          have hlength := (mapM_eq_ok_iff.mp hfound).length_eq
          rw [ok_map, ok_bind]
          dsimp only
          rw [rewrite_numbered hlength]
          dsimp only
          -- the last step that can be refused never is
          obtain ⟨b', hb'⟩ := exists_copyContents m (rebase path) m.sourceNames _
          rw [hb']
          exact copyInPlace_eq hb'

/-! ## Refusals -/

/-- Whether a map fails with an error on a mapping into one of its files. -/
def Fails (m : LoadedMap) (file : String) (a : Mapping) (e : Error) : Prop :=
  ∃ o, a.original = some o ∧ o.source = file ∧
    m.originalPositionFor o.position .greatestLowerBound = .error e

/-- Why a builder cannot be taken through a map: no file is known, or the map fails on a mapping
into the file and on none before it. -/
def Refused (b : Builder) (m : LoadedMap) (file : Option String) (e : Error) : Prop :=
  (file.or m.file = none ∧ e = .missingFile) ∨
  ∃ given before a after, file.or m.file = some given ∧ b.mappings = before ++ a :: after ∧
    Fails m (SourceRoot.relativize b.root given) a e ∧
    ∀ a' ∈ before, ∀ e', ¬ Fails m (SourceRoot.relativize b.root given) a' e'

theorem lookUp_eq_error_iff {m : LoadedMap} {file : String} {a : Mapping} {e : Error} :
    lookUp m file a = .error e ↔ Fails m file a e := by
  unfold lookUp Fails
  cases a.original with
  | none => simp
  | some o =>
      by_cases hfile : o.source = file
      · simp [hfile, map_eq_error_iff]
      · simp [hfile]

theorem exists_lookUp_iff {m : LoadedMap} {file : String} {a : Mapping} :
    (∃ found, lookUp m file a = .ok found) ↔ ∀ e, ¬ Fails m file a e := by
  simp only [← lookUp_eq_error_iff]
  cases lookUp m file a with
  | error e => simp
  | ok found => simp

/-- **A builder is refused just if no file is known or a lookup fails.** -/
theorem applyMap_eq_error_iff {b : Builder} {m : LoadedMap} {file path : Option String}
    {e : Error} : b.applyMap m file path = .error e ↔ Refused b m file e := by
  rw [applyMap, Refused]
  cases file.or m.file with
  | none =>
      constructor
      · rintro ⟨⟩
        exact Or.inl ⟨rfl, rfl⟩
      · rintro (⟨-, rfl⟩ | ⟨_, _, _, _, ⟨⟩, _⟩)
        rfl
  | some given =>
      dsimp only
      rw [bind_eq_error_iff, mapM_eq_error_iff]
      simp only [lookUp_eq_error_iff, exists_lookUp_iff]
      constructor
      · rintro (⟨before, a, after, hmappings, ha, hbefore⟩ | ⟨found, -, hcopy⟩)
        · exact Or.inr ⟨given, before, a, after, rfl, hmappings, ha, hbefore⟩
        · -- contents are never refused
          obtain ⟨b', hb'⟩ := exists_copyContents m (rebase path) m.sourceNames _
          rw [hb'] at hcopy
          cases hcopy
      · rintro (⟨⟨⟩, -⟩ | ⟨_, before, a, after, ⟨⟩, hmappings, ha, hbefore⟩)
        exact Or.inl ⟨before, a, after, hmappings, ha, hbefore⟩

/-! ## Moved mappings -/

/-- Whether a mapping is rewritten to another one by a map: it stays as it is unless it is in the
file and the map has a place for it, and otherwise it gets this place, and its name unless the map
has none. -/
inductive Rewritten (m : LoadedMap) (file : String) (rename : String → String) :
    Mapping → Mapping → Prop
  | kept {a : Mapping} :
      (∀ o, a.original = some o → o.source = file → ∃ answer, answer.isEmpty = true ∧
        m.originalPositionFor o.position .greatestLowerBound = .ok answer) →
      Rewritten m file rename a a
  | moved {a : Mapping} {o : OriginalLocation} {source : String} {line column : UInt32}
      {name : Option String} : a.original = some o → o.source = file →
      m.originalPositionFor o.position .greatestLowerBound =
        .ok { source := some source, line := some line, column := some column, name } →
      Rewritten m file rename a
        { generated := a.generated
          original := some { source := rename source, position := { line, column } }
          name := name.or a.name }

theorem lookUp_eq_none {m : LoadedMap} {file : String} {a : Mapping}
    (h : lookUp m file a = .ok none) {o : OriginalLocation} (ho : a.original = some o)
    (hfile : o.source = file) : ∃ answer, answer.isEmpty = true ∧
      m.originalPositionFor o.position .greatestLowerBound = .ok answer := by
  rw [lookUp, ho] at h
  dsimp only at h
  rw [if_pos hfile] at h
  obtain ⟨answer, hanswer, hnone⟩ := map_eq_ok_iff.mp h
  refine ⟨answer, ?_, hanswer⟩
  by_contra hempty
  rw [if_neg hempty] at hnone
  cases hnone

theorem Moves.rewritten {m : LoadedMap} (hm : m.Sound) {file : String} {rename : String → String}
    {a a' : Mapping} (h : Moves m file rename a a') : Rewritten m file rename a a' := by
  obtain ⟨found, hfound, rfl⟩ := h
  cases found with
  | none => exact .kept fun o ho hfile => lookUp_eq_none hfound ho hfile
  | some answer =>
      obtain ⟨o, ho, hfile, -, hanswer⟩ := lookUp_eq_some hfound
      obtain ⟨source, line, column, -, heq, hmove⟩ := move_eq hm hfound rename
      rw [heq] at hanswer
      rw [hmove]
      exact .moved ho hfile hanswer

/-- **A mapping is rewritten in one way only.** -/
theorem Rewritten.unique {m : LoadedMap} {file : String} {rename : String → String}
    {a a₁ a₂ : Mapping} (h₁ : Rewritten m file rename a a₁) (h₂ : Rewritten m file rename a a₂) :
    a₁ = a₂ := by
  -- a place that is kept was not found, so both are kept or both are moved to what was found
  cases h₁ with
  | kept hkept =>
      cases h₂ with
      | kept _ => rfl
      | moved ho hfile hanswer =>
          obtain ⟨answer, hempty, hnone⟩ := hkept _ ho hfile
          cases hnone.symm.trans hanswer
          cases hempty
  | moved ho hfile hanswer =>
      cases h₂ with
      | kept hkept =>
          obtain ⟨answer, hempty, hnone⟩ := hkept _ ho hfile
          cases hnone.symm.trans hanswer
          cases hempty
      | moved ho' _ hanswer' =>
          cases ho.symm.trans ho'
          cases hanswer.symm.trans hanswer'
          rfl

/-- **A builder is taken through a map as a whole or not at all.** It is refused just if no file is
known or the map fails on a mapping into the file, with the error of the first such mapping, and is
then as it was. Otherwise each mapping stays where it is in the generated file and is rewritten to
the place that the map has for it, if there is one. This is about string tables whose slots have
numbers of 32 bits. -/
theorem applyInPlace_iff_refused {m : LoadedMap} (hm : m.Reachable) (b : Builder)
    (file path : Option String) :
    b.applyInPlace m file path = b.perform (.applyMap m file path) ∧
    (∀ e b', b.applyInPlace m file path = (.error e, b') ↔ Refused b m file e ∧ b' = b) ∧
    ∀ b', b.applyInPlace m file path = (.ok (), b') →
      b'.mappings.map Mapping.generated = b.mappings.map Mapping.generated ∧
      ∃ given, file.or m.file = some given ∧
        List.Forall₂ (Rewritten m (SourceRoot.relativize b.root given)
          fun source => SourceRoot.relativize b.root (rebase path source))
          b.mappings b'.mappings := by
  refine ⟨applyInPlace_eq b m file path, ?_, ?_⟩
  · intro e b'
    rw [applyInPlace_eq, ← applyMap_eq_error_iff, perform]
    cases happly : b.applyMap m file path with
    | error e' => simp [settle, eq_comm]
    | ok b₁ => simp [settle]
  · intro b' h
    rw [applyInPlace_eq, perform] at h
    cases happly : b.applyMap m file path with
    | error e =>
        rw [happly] at h
        cases h
    | ok b₁ =>
        rw [happly] at h
        cases h
        obtain ⟨given, moved, contents, hgiven, hmoved, rfl⟩ := applyMap_cases happly
        refine ⟨map_eq_of_forall₂ Moves.generated hmoved, given, hgiven, ?_⟩
        exact hmoved.imp fun _ _ h => h.rewritten hm.sound

/-- A map whose second section cannot be read moves mappings into its first section. A mapping into
its second section is refused, and then a mapping before it is not moved either. -/
theorem applyInPlace_iff_refused_sections :
    let outer : Record :=
      { version := some 3, file := some "out.js"
        sections := some
          [{ offset := ⟨0, 0⟩
             map := some
              { version := some 3, sources := some [some "a.js"], mappings := some "AAAA" } },
            { offset := ⟨1, 0⟩
              map := some { version := some 3, sources := some [], mappings := some "!" } }] }
    let first : Mapping := { generated := ⟨1, 0⟩, original := some ⟨"out.js", ⟨1, 4⟩⟩, name := "f" }
    let other : Mapping := { generated := ⟨2, 0⟩, original := some ⟨"b.js", ⟨1, 0⟩⟩ }
    let second : Mapping := { generated := ⟨3, 0⟩, original := some ⟨"out.js", ⟨2, 0⟩⟩ }
    let b : Builder := run {} [.addMapping first, .addMapping other]
    let b₁ : Builder := b.run [.addMapping second]
    ∃ m, LoadedMap.ofRecord outer = .ok m ∧
      (∃ b', b.applyInPlace m none (some "lib") = (.ok (), b') ∧ b'.mappings =
        [{ first with original := some ⟨"lib/a.js", ⟨1, 0⟩⟩ }, other]) ∧
      ∃ e, b₁.applyInPlace m none (some "lib") = (.error e, b₁) := by
  intro outer first other second b b₁
  obtain ⟨m, hm⟩ : ∃ m, LoadedMap.ofRecord outer = .ok m := ⟨_, rfl⟩
  have hfile : m.file = some "out.js" := by cases hm; rfl
  have hfound : (LoadedMap.ofRecord outer).bind
      (fun m => m.originalPositionFor ⟨1, 4⟩ .greatestLowerBound) =
        .ok { source := some "a.js", line := some 1, column := some 0 } := by
    cbv
  have hfails : ∃ e, (LoadedMap.ofRecord outer).bind
      (fun m => m.originalPositionFor ⟨2, 0⟩ .greatestLowerBound) = .error e := ⟨_, by cbv⟩
  rw [hm] at hfound hfails
  obtain ⟨e, hfails⟩ := hfails
  have hsecond : Fails m "out.js" second e := ⟨_, rfl, rfl, hfails⟩
  have hfirst : ∀ e, ¬ Fails m "out.js" first e := by
    rintro e ⟨o, ⟨⟩, -, herror⟩
    cases hfound.symm.trans herror
  have hother : ∀ e, ¬ Fails m "out.js" other e := by
    rintro e ⟨o, ⟨⟩, hsource, -⟩
    exact absurd hsource (by decide)
  have hnone : ∀ a ∈ [first, other], ∀ e, ¬ Fails m "out.js" a e := by
    simpa using ⟨hfirst, hother⟩
  have hmappings : b.mappings = [first, other] := rfl
  obtain ⟨-, hrefused, hok⟩ := applyInPlace_iff_refused (.ofRecord hm) b none (some "lib")
  obtain ⟨-, hrefused₁, -⟩ := applyInPlace_iff_refused (.ofRecord hm) b₁ none (some "lib")
  have hgiven (given : String) (h : none.or m.file = some given) : given = "out.js" := by
    rw [hfile] at h
    exact (Option.some.inj h).symm
  refine ⟨m, hm, ?_, e, (hrefused₁ e b₁).mpr ⟨Or.inr ?_, rfl⟩⟩
  · cases hresult : b.applyInPlace m none (some "lib") with
    | mk result b' =>
        cases result with
        | error e' =>
            rcases ((hrefused e' b').mp hresult).1 with ⟨hnofile, -⟩ | ⟨given, before, a, after, h⟩
            · rw [hfile] at hnofile
              cases hnofile
            · obtain ⟨hfile', hsplit, ha, -⟩ := h
              rw [hgiven given hfile'] at ha
              rw [hmappings] at hsplit
              exact absurd ha (hnone a (by simp [hsplit]) e')
        | ok u =>
            obtain ⟨-, given, hfile', hrewritten⟩ := hok b' hresult
            refine ⟨b', rfl, ?_⟩
            rw [hgiven given hfile', hmappings] at hrewritten
            obtain ⟨first', _, hfirst', hrest, heq⟩ := List.forall₂_cons_left_iff.mp hrewritten
            obtain ⟨other', _, hother', hnil, rfl⟩ := List.forall₂_cons_left_iff.mp hrest
            have hjoin :
                SourceRoot.relativize b.root (rebase (some "lib") "a.js") = "lib/a.js" := by
              show Path.join "lib" "a.js" = "lib/a.js"
              decide +kernel
            have hmoved := hfirst'.unique (.moved rfl rfl hfound)
            have hkept := hother'.unique (.kept fun o ho hsource => by
              cases ho
              exact absurd hsource (by decide))
            rw [heq, List.forall₂_nil_left_iff.mp hnil, hmoved, hkept, hjoin]
            rfl
  · exact ⟨"out.js", [first, other], second, [], hfile, rfl, hsecond, hnone⟩

end SourceMap.Builder

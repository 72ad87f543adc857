import Mathlib
import SourceMap.Proofs.Reachable

/-!
# Builders in operation

`Builder.perform` does one operation and leaves a builder as it is if the operation is refused;
`Builder.run` does one after the other. Whatever is done to a builder that can be made, its mappings
have no fault, its tables are the distinct sources and names of the mappings in the order of their
first occurrence, its log knows whether the mappings are in order, and there is no table of contents
without contents (`consistent_run`).
-/

set_option autoImplicit false

namespace SourceMap

/-! ## Tables of distinct strings -/

theorem eraseDups_concat (ss : List String) (s : String) :
    (ss ++ [s]).eraseDups = if s ∈ ss then ss.eraseDups else ss.eraseDups ++ [s] := by
  rw [List.eraseDups_append]
  by_cases hs : s ∈ ss
  · simp [List.removeAll, hs]
  · simp [List.removeAll, hs, List.eraseDups_cons]

/-- **Registering strings keeps the distinct ones in the order of their first occurrence.** -/
theorem StringTable.toList_register_eq (os : List (Option String)) :
    (os.foldl register .empty).toList = (os.filterMap id).eraseDups := by
  -- the last string decides whether a slot is added, so the list is taken apart from its end
  induction os using List.reverseRecOn with
  | nil => rfl
  | append_singleton os o ih =>
      rw [List.foldl_concat, List.filterMap_append]
      cases o with
      | none => simpa [register] using ih
      | some s =>
          have hadd : ((os.foldl register .empty).insert s).toList =
              if s ∈ os.filterMap id then (os.filterMap id).eraseDups
              else (os.filterMap id).eraseDups ++ [s] := by
            simp [insert, toList_add, ih]
          show ((os.foldl register .empty).insert s).toList = (os.filterMap id ++ [s]).eraseDups
          rw [hadd, eraseDups_concat]

namespace Builder

theorem Sound.toList_sources {b : Builder} (h : b.Sound) :
    b.sources.toList = (b.mappings.filterMap Mapping.source?).eraseDups := by
  rw [h.sources_eq, StringTable.toList_register_eq, List.filterMap_map]
  rfl

theorem Sound.toList_names {b : Builder} (h : b.Sound) :
    b.names.toList = (b.mappings.filterMap Mapping.name).eraseDups := by
  rw [h.names_eq, StringTable.toList_register_eq, List.filterMap_map]
  rfl

/-! ## Tables of contents -/

/-- Whether a table of contents has contents, if there is one. -/
def Stocked (b : Builder) : Prop :=
  ∀ contents, b.contents = some contents → contents.isEmpty = false

theorem stocked_new (file root : Option String) : Stocked { file, root } := by
  intro contents hcontents
  cases hcontents

theorem stocked_setContent (b : Builder) (source : String) (content : Option String) :
    (b.setContent source content).Stocked := by
  intro contents hcontents
  cases content with
  | none =>
      -- an empty table is dropped
      have hkept := (Option.filter_eq_some_iff.mp hcontents).2
      simpa using hkept
  | some text =>
      have hinsert := Option.some.inj hcontents
      rw [← hinsert]
      exact Std.TreeMap.isEmpty_insert

theorem Stocked.copyContents {m : LoadedMap} {rename : String → String} {sources : List String} :
    ∀ {b b' : Builder}, b.Stocked → b.copyContents m rename sources = .ok b' → b'.Stocked := by
  induction sources with
  | nil =>
      intro b b' h hcopy
      cases hcopy
      exact h
  | cons source sources ih =>
      intro b b' h hcopy
      rw [Builder.copyContents] at hcopy
      split at hcopy
      · cases hcopy
      · exact ih h hcopy
      · exact ih (stocked_setContent _ _ _) hcopy

theorem Stocked.addMapping {b b' : Builder} {m : Mapping} (h : b.Stocked)
    (hadd : b.addMapping m = .ok b') : b'.Stocked := by
  obtain ⟨-, rfl⟩ := addMapping_eq_ok_iff.mp hadd
  exact h

theorem Stocked.ofMap {m : LoadedMap} {b : Builder} (h : Builder.ofMap m = .ok b) :
    b.Stocked := by
  obtain ⟨ms, -, hrest⟩ := bind_eq_ok_iff.mp h
  obtain ⟨b₁, hadd, hcopy⟩ := bind_eq_ok_iff.mp hrest
  have hadded := foldlM_invariant Stocked.addMapping (stocked_new m.file m.root) hadd
  exact hadded.copyContents hcopy

theorem Stocked.applyMap {b b' : Builder} {m : LoadedMap} {file path : Option String}
    (h : b.Stocked) (happly : b.applyMap m file path = .ok b') : b'.Stocked := by
  unfold Builder.applyMap at happly
  split at happly
  · cases happly
  · obtain ⟨found, -, hcopy⟩ := bind_eq_ok_iff.mp happly
    -- the mappings are moved, and the contents stay as they are until they are copied
    refine Stocked.copyContents ?_ hcopy
    exact h

/-- Every builder that can be made is stocked. -/
theorem Reachable.stocked {b : Builder} (h : b.Reachable) : b.Stocked := by
  refine h.induction stocked_new (fun _ hb => .ofMap hb) ?_ ?_ ?_
  · exact fun _ hadd ih => ih.addMapping hadd
  · exact fun source content _ _ => stocked_setContent _ source content
  · exact fun _ _ happly ih => ih.applyMap happly

/-! ## Operations -/

/-- What can be done to a builder. -/
inductive Operation where
  | addMapping (m : Mapping)
  | setContent (source : String) (content : Option String)
  | applyMap (m : LoadedMap) (file path : Option String)

/-- Whether the map of an operation, if it has one, can be made. -/
def Operation.Possible : Operation → Prop
  | .applyMap m _ _ => m.Reachable
  | _ => True

/-- Takes over what an operation makes of a builder, unless it is refused. -/
def settle (b : Builder) : Except Error Builder → Except Error Unit × Builder
  | .error e => (.error e, b)
  | .ok b' => (.ok (), b')

/-- Does an operation and tells whether it was refused. -/
def perform (b : Builder) : Operation → Except Error Unit × Builder
  | .addMapping m => b.settle (b.addMapping m)
  | .setContent source content => (.ok (), b.setContent source content)
  | .applyMap m file path => b.settle (b.applyMap m file path)

/-- Does operations one after the other, whether or not some are refused. -/
def run (b : Builder) (ops : List Operation) : Builder :=
  ops.foldl (fun b op => (b.perform op).2) b

theorem Reachable.settle {b : Builder} (hb : b.Reachable) {result : Except Error Builder}
    (h : ∀ b', result = .ok b' → b'.Reachable) : (b.settle result).2.Reachable := by
  cases result with
  | error e => exact hb
  | ok b' => exact h b' rfl

/-- An operation makes a builder that can be made. -/
theorem Reachable.perform {b : Builder} (hb : b.Reachable) {op : Operation} (hop : op.Possible) :
    (b.perform op).2.Reachable := by
  cases op with
  | addMapping m => exact hb.settle fun b' hadd => .addMapping m hb hadd
  | setContent source content => exact .setContent source content hb
  | applyMap m file path => exact hb.settle fun b' happly => .applyMap file path hb hop happly

/-- So do operations one after the other. -/
theorem Reachable.run {ops : List Operation} (hops : ∀ op ∈ ops, op.Possible) :
    ∀ {b : Builder}, b.Reachable → (b.run ops).Reachable := by
  induction ops with
  | nil => exact fun hb => hb
  | cons op ops ih =>
      intro b hb
      have hstep := hb.perform (hops op List.mem_cons_self)
      exact ih (fun op' hop' => hops op' (List.mem_cons_of_mem op hop')) hstep

/-- A mapping is refused just when it has a fault, and then the builder stays as it is. -/
theorem perform_addMapping_eq_error_iff {b b' : Builder} {m : Mapping} {e : Error} :
    b.perform (.addMapping m) = (.error e, b') ↔
      b' = b ∧ ∃ fault, m.fault? = some fault ∧ e = .invalidMapping fault m := by
  rw [perform, addMapping]
  cases m.fault? with
  | none => simp [Builder.settle]
  | some fault => simp [Builder.settle, eq_comm, and_comm]

/-! ## What operations keep -/

/-- What holds of a builder, as it can be seen from the outside. -/
structure Consistent (b : Builder) : Prop where
  generatedLine : ∀ m ∈ b.mappings, m.generated.line ≠ 0
  originalLine : ∀ m ∈ b.mappings, ∀ o, m.original = some o → o.position.line ≠ 0
  nameNeedsSource : ∀ m ∈ b.mappings, m.original = none → m.name = none
  /-- The sources of the mappings, each where it occurs first. -/
  sources : b.sources.toList = (b.mappings.filterMap Mapping.source?).eraseDups
  names : b.names.toList = (b.mappings.filterMap Mapping.name).eraseDups
  inOrder : b.log.inOrder = true ↔
    b.mappings.Pairwise fun m m' => (compare m.generated m'.generated).isLE = true
  contents : ∀ contents, b.contents = some contents → ∃ source, source ∈ contents

theorem Reachable.consistent {b : Builder} (h : b.Reachable) : b.Consistent := by
  have hsound := h.sound
  have hfaultless (m : Mapping) (hm : m ∈ b.mappings) :=
    Mapping.fault?_eq_none_iff.mp (hsound.faultless m hm)
  exact
    { generatedLine := fun m hm => (hfaultless m hm).1
      originalLine := fun m hm => (hfaultless m hm).2.1
      nameNeedsSource := fun m hm => (hfaultless m hm).2.2
      sources := hsound.toList_sources
      names := hsound.toList_names
      inOrder := hsound.log
      contents := fun contents hcontents =>
        Std.TreeMap.isEmpty_eq_false_iff_exists_mem.mp (h.stocked contents hcontents) }

/-- **Whatever is done to a builder, it stays consistent.** A mapping that is added to it is refused
just when it has a fault, which the error names, and then changes nothing. This is about string
tables whose slots have numbers of 32 bits. -/
theorem consistent_run {b : Builder} (hb : b.Reachable) {ops : List Operation}
    (hops : ∀ op ∈ ops, op.Possible) :
    (b.run ops).Consistent ∧ ∀ m e b', (b.run ops).perform (.addMapping m) = (.error e, b') ↔
      b' = b.run ops ∧ ∃ fault, m.fault? = some fault ∧ e = .invalidMapping fault m :=
  ⟨(hb.run hops).consistent, fun _ _ _ => perform_addMapping_eq_error_iff⟩

/-- Mappings out of order, a mapping without a line that is refused, a content that is set and
forgotten, and a map that leads from `b.js` to `a.js`. -/
theorem consistent_run_refused :
    let m : Mapping :=
      { generated := ⟨2, 0⟩, original := some ⟨"a.js", ⟨1, 0⟩⟩, name := some "x" }
    let m' : Mapping := { generated := ⟨1, 4⟩, original := some ⟨"b.js", ⟨3, 0⟩⟩ }
    let bad : Mapping := { generated := ⟨0, 0⟩ }
    let map := (run {} [.addMapping
      { generated := ⟨3, 0⟩, original := some ⟨"a.js", ⟨7, 2⟩⟩ }]).toMap
    let ops : List Operation := [.addMapping m, .addMapping bad, .addMapping m',
      .setContent "a.js" (some "text"), .setContent "a.js" none, .applyMap map (some "b.js") none]
    let b := run {} ops
    (∀ op ∈ ops, op.Possible) ∧
      b.mappings = [m, { m' with original := some ⟨"a.js", ⟨7, 2⟩⟩ }] ∧
      b.sources.toList = ["a.js"] ∧ b.names.toList = ["x"] ∧ b.log.inOrder = false ∧
      b.Consistent ∧
      b.perform (.addMapping bad) = (.error (.invalidMapping .generatedLineZero bad), b) := by
  intro m m' bad map ops b
  have hnew : Reachable {} := .new none none
  have hmap : map.Reachable := by
    refine .toMap (hnew.run ?_)
    intro op hop
    rw [List.mem_singleton.mp hop]
    exact trivial
  have hops : ∀ op ∈ ops, op.Possible := by
    simp [ops, Operation.Possible, hmap]
  have hmappings : b.mappings = [m, { m' with original := some ⟨"a.js", ⟨7, 2⟩⟩ }] := by
    cbv
  obtain ⟨hconsistent, hrefused⟩ := consistent_run hnew hops
  refine ⟨hops, hmappings, ?_, ?_, ?_, hconsistent, ?_⟩
  · rw [hconsistent.sources, hmappings]
    decide
  · rw [hconsistent.names, hmappings]
    decide
  · rw [← Bool.not_eq_true, hconsistent.inOrder, hmappings]
    decide
  · exact (hrefused bad _ _).mpr ⟨rfl, _, rfl, rfl⟩

end Builder

end SourceMap

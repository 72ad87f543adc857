import Mathlib
import SourceMap.Proofs.Rewriting

/-!
# Operations in place

The operations of a builder can be done in place, as steps that change the builder one after the
other and can be cut short by an error. What was changed before the error then stays changed. They
come to the same as the operations that make a new builder (`performInPlace_eq`, `runInPlace_eq`),
so an operation that is refused has not changed anything yet (`performInPlace_refused`).
-/

set_option autoImplicit false

namespace SourceMap.Builder

/-! ## Steps -/

/-- Steps on a builder. An error ends them, and leaves the builder as it is at that step. -/
abbrev Steps (α : Type) : Type :=
  ExceptT Error (StateM Builder) α

/-- The outcome of steps, and the builder that they leave. -/
def Steps.perform {α : Type} (steps : Steps α) (b : Builder) : Except Error α × Builder :=
  steps.run b

/-- Passes a mapping without a fault. -/
def validate (m : Mapping) : Steps Unit :=
  match m.fault? with
  | some fault => throw (.invalidMapping fault m)
  | none => pure ()

/-- Adds a mapping: first its source is registered, then its name, and then it is logged. -/
def addInPlace (m : Mapping) : Steps Unit := do
  validate m
  if let some source := m.source? then
    modify fun b => { b with sources := b.sources.insert source }
  if let some name := m.name then
    modify fun b => { b with names := b.names.insert name }
  modify fun b => { b with log := b.log.add m }

/-- Sets the content of a source in a table that is made if there is none, or forgets it and then
drops a table that has become empty. -/
def setContentInPlace (source : String) (content : Option String) : Steps Unit := do
  let source := SourceRoot.relativize (← get).root source
  match content with
  | some text =>
    modify fun b => { b with contents := b.contents.or (some ∅) }
    modify fun b => { b with contents := b.contents.map (·.insert source text) }
  | none =>
    if let some contents := (← get).contents then
      let contents := contents.erase source
      modify fun b => { b with contents := some contents }
      if contents.isEmpty then
        modify fun b => { b with contents := none }

/-- Does an operation in place. -/
def performInPlace (b : Builder) : Operation → Except Error Unit × Builder
  | .addMapping m => (addInPlace m).perform b
  | .setContent source content => (setContentInPlace source content).perform b
  | .applyMap m file path => b.applyInPlace m file path

/-- Does operations in place, one after the other, whether or not some are refused. -/
def runInPlace (b : Builder) (ops : List Operation) : Builder :=
  ops.foldl (fun b op => (b.performInPlace op).2) b

/-! ## Operations -/

/-- **A mapping is refused before anything is registered.** -/
theorem perform_addInPlace (m : Mapping) (b : Builder) :
    (addInPlace m).perform b = b.perform (.addMapping m) := by
  rw [perform, addMapping, addInPlace, validate]
  cases m.fault? with
  | some fault => rfl
  | none =>
      rw [registerSource, registerName]
      cases m.source? <;> cases m.name <;> rfl

theorem perform_setContentInPlace (source : String) (content : Option String) (b : Builder) :
    (setContentInPlace source content).perform b = b.perform (.setContent source content) := by
  obtain ⟨file, root, sources, names, log, contents⟩ := b
  cases content with
  | some text => cases contents <;> rfl
  | none =>
      cases contents with
      | none => rfl
      | some contents =>
          let kept := contents.erase (SourceRoot.relativize root source)
          have hkept : (some kept).filter (!·.isEmpty) =
              if kept.isEmpty then none else some kept := by
            cases hempty : kept.isEmpty <;> simp [hempty]
          rw [perform, setContent]
          -- the steps end with a choice, and either way the outcome is the one that is claimed
          show (if kept.isEmpty then _ else _ : Steps Unit).perform _ =
            (.ok (), { file, root, sources, names, log, contents := (some kept).filter _ })
          rw [hkept]
          split <;> rfl

/-- **In place an operation comes to the same.** -/
theorem performInPlace_eq (b : Builder) (op : Operation) : b.performInPlace op = b.perform op := by
  cases op with
  | addMapping m => exact perform_addInPlace m b
  | setContent source content => exact perform_setContentInPlace source content b
  | applyMap m file path => exact applyInPlace_eq b m file path

/-- **So do operations one after the other.** -/
theorem runInPlace_eq (b : Builder) (ops : List Operation) : b.runInPlace ops = b.run ops := by
  simp only [runInPlace, run, performInPlace_eq]

/-- **What is refused in place has not changed anything.** -/
theorem performInPlace_refused {b b' : Builder} {op : Operation} {e : Error}
    (h : b.performInPlace op = (.error e, b')) : b' = b := by
  rw [performInPlace_eq] at h
  cases op with
  | addMapping m => exact (perform_addMapping_eq_error_iff.mp h).1
  | setContent source content => cases h
  | applyMap m file path =>
      rw [perform] at h
      cases happly : b.applyMap m file path with
      | error e' =>
          rw [happly] at h
          exact (congrArg Prod.snd h).symm
      | ok b₁ =>
          rw [happly] at h
          cases h

end SourceMap.Builder

import Mathlib
import SourceMap.Proofs.RoundTrip

/-!
# Mappings written in one loop

Mappings can be written in one loop that passes over repetitions as it goes: on the line it is on,
it compares each mapping with the one before it, and goes on to the next one if they are equal. It
looks up every slot as it is needed. The text is the one of the entries without repetitions
(`Sound.out_writeFrom`): what is passed over leaves behind no comma and no difference.
-/

set_option autoImplicit false

namespace SourceMap.Builder

/-! ## The loop -/

/-- The loop in the middle of some mappings: what it has written, and the values that the next
segment is relative to. -/
structure Pass where
  out : String := ""
  running : Running := {}

/-- Writes the difference between two values. -/
def Pass.put (p : Pass) (value before : Int) : Pass :=
  { p with out := p.out ++ String.ofList (Vlq.encode (value - before)) }

/-- Writes the segment of a mapping, one number after the other. A source or a name without a slot
would count as that of the first slot. -/
def writeSegment (b : Builder) (p : Pass) (m : Mapping) : Pass :=
  let column : Int := m.generated.column.toNat
  let p := p.put column p.running.column
  let p := { p with running.column := column }
  match m.original with
  | none => p
  | some o =>
    let source : Int := (b.sources.indexOf? o.source).getD 0
    let p := p.put source p.running.source
    let p := { p with running.source := source }
    let line : Int := o.position.line.toNat - 1
    let p := p.put line p.running.originalLine
    let p := { p with running.originalLine := line }
    let column : Int := o.position.column.toNat
    let p := p.put column p.running.originalColumn
    let p := { p with running.originalColumn := column }
    match m.name with
    | none => p
    | some name =>
      let name : Int := (b.names.indexOf? name).getD 0
      let p := p.put name p.running.name
      { p with running.name := name }

/-- Writes a mapping behind the one before it, if there is one. A new line starts with as many
semicolons as lines have passed. On the same line there is a comma, and a mapping that is equal to
the one before it is passed over. -/
def writeNext (b : Builder) (p : Pass) (previous : Option Mapping) (m : Mapping) : Pass :=
  let line := m.generated.line.toNat
  if line ≠ p.running.line then
    b.writeSegment
      { out := p.out ++ String.ofList (List.replicate (line - p.running.line) ';')
        running := { p.running with line, column := 0 } } m
  else
    match previous with
    | none => b.writeSegment p m
    | some last => if last = m then p else b.writeSegment { p with out := p.out ++ "," } m

/-- Writes mappings one after the other. -/
def writeFrom (b : Builder) (p : Pass) (previous : Option Mapping) : List Mapping → Pass
  | [] => p
  | m :: ms => b.writeFrom (b.writeNext p previous m) (some m) ms

/-! ## Segments -/

/-- Whether the source and the name of a mapping have slots, the name only with a source. -/
structure Registered (b : Builder) (m : Mapping) : Prop where
  source : ∀ o, m.original = some o → ∃ i, b.sources.indexOf? o.source = some i
  name : ∀ name, m.name = some name → ∃ i, b.names.indexOf? name = some i

theorem Sound.registered {b : Builder} (h : b.Sound) {m : Mapping} (hm : m ∈ b.mappings) :
    b.Registered m where
  source _ ho := h.exists_source hm ho
  name _ hname := h.exists_name hm hname

/-- **The numbers of a segment are the differences of its entry.** -/
theorem Registered.writeSegment_eq {b : Builder} {m : Mapping} (h : b.Registered m) {p : Pass}
    (hline : p.running.line = m.generated.line.toNat) :
    b.writeSegment p m =
      { out := p.out ++ String.ofList ((p.running.delta (b.entry m)).write)
        running := p.running.after (b.entry m) } := by
  obtain ⟨out, ⟨line, column, source, originalLine, originalColumn, last⟩⟩ := p
  obtain ⟨generated, _ | o, name⟩ := m
  · obtain rfl : line = generated.line.toNat := hline
    simp [writeSegment, Pass.put, entry, Running.delta, Delta.write, Delta.numbers, Running.after]
  · obtain rfl : line = generated.line.toNat := hline
    obtain ⟨i, hi⟩ := h.source o rfl
    cases name with
    | none =>
        simp [writeSegment, Pass.put, entry, Running.delta, Delta.write, Delta.numbers,
          Running.after, hi, String.append_assoc]
    | some name =>
        obtain ⟨j, hj⟩ := h.name name rfl
        simp [writeSegment, Pass.put, entry, Running.delta, Delta.write, Delta.numbers,
          Running.after, hi, hj, String.append_assoc]

/-! ## The loop and the entries -/

/-- The pass that stands where a draft of entries does. -/
def Pass.ofDraft (d : Entry.Draft) : Pass :=
  { out := d.text, running := d.running }

theorem line_enter (r : Running) (line : Nat) : (r.enter line).line = line := by
  unfold Running.enter
  split
  · rename_i hsame
    exact hsame.symm
  · rfl

theorem after_enter (r : Running) (e : Entry) :
    (r.enter e.generated.line.toNat).after e = r.after e := by
  unfold Running.enter
  split <;> rfl

/-- Behind what separates it from the entry before, a mapping is written like its entry. -/
theorem Registered.writeSegment_enter {b : Builder} {m : Mapping} (h : b.Registered m)
    (d : Entry.Draft) :
    b.writeSegment
        { out := d.text ++ String.ofList (d.running.separator d.first (b.entry m))
          running := d.running.enter m.generated.line.toNat } m =
      .ofDraft (d.write (b.entry m)) := by
  have hafter : (d.running.enter m.generated.line.toNat).after (b.entry m) = _ :=
    after_enter d.running (b.entry m)
  rw [h.writeSegment_eq (line_enter _ _), hafter, Pass.ofDraft, Entry.Draft.write,
    String.ofList_append, ← String.append_assoc]
  rfl

/-- **A mapping is written like its entry**, unless it is equal to the one before it. -/
theorem Registered.writeNext_eq {b : Builder} {m : Mapping} (h : b.Registered m)
    {d : Entry.Draft} {previous : Option Mapping} (hfirst : d.first = previous.isNone)
    (hne : previous ≠ some m) :
    b.writeNext (.ofDraft d) previous m = .ofDraft (d.write (b.entry m)) := by
  rw [← h.writeSegment_enter]
  unfold writeNext Running.separator Running.enter
  by_cases hline : m.generated.line.toNat = d.running.line
  · have hentry : (b.entry m).generated.line.toNat = d.running.line := hline
    rw [if_pos hentry, if_pos hline, hfirst]
    refine (if_neg (not_not.mpr hline)).trans ?_
    cases previous with
    | none =>
        show b.writeSegment _ m = b.writeSegment { out := d.text ++ "", running := d.running } m
        rw [String.append_empty]
        rfl
    | some last => exact if_neg fun heq => hne (congrArg some heq)
  · have hentry : (b.entry m).generated.line.toNat ≠ d.running.line := hline
    rw [if_neg hentry, if_neg hline]
    exact if_pos hline

/-- A mapping that is equal to the one before it is passed over. -/
theorem writeNext_self {b : Builder} {p : Pass} {m : Mapping}
    (hline : p.running.line = m.generated.line.toNat) : b.writeNext p (some m) m = p := by
  rw [writeNext, if_neg (by simp [hline])]
  exact if_pos rfl

/-- **Behind a mapping, the loop writes what is left of the others without repetitions.** -/
theorem writeFrom_some {b : Builder} {ms : List Mapping} :
    ∀ {d : Entry.Draft} {last : Mapping}, (∀ m ∈ ms, b.Registered m) → d.first = false →
      d.running.line = last.generated.line.toNat →
      ∃ rest, (last :: ms).eraseReps = last :: rest ∧
        b.writeFrom (.ofDraft d) (some last) ms =
          .ofDraft ((rest.map b.entry).foldl Entry.Draft.write d) := by
  induction ms with
  | nil => exact fun _ _ _ => ⟨[], rfl, rfl⟩
  | cons m ms ih =>
      intro d last hms hd hline
      have hrest : ∀ a ∈ ms, b.Registered a := fun a ha => hms a (List.mem_cons_of_mem m ha)
      by_cases heq : last = m
      · subst heq
        obtain ⟨rest, herase, hwrite⟩ := ih hrest hd hline
        refine ⟨rest, ?_, ?_⟩
        · rw [eraseReps_self_cons, herase]
        · rw [writeFrom, writeNext_self hline, hwrite]
      · obtain ⟨rest, herase, hwrite⟩ :=
          ih (d := d.write (b.entry m)) hrest rfl (Entry.line_after d.running (b.entry m))
        refine ⟨m :: rest, ?_, ?_⟩
        · rw [eraseReps_cons_of_ne heq, herase]
        · rw [writeFrom, (hms m List.mem_cons_self).writeNext_eq hd (by simpa using heq), hwrite]
          rfl

/-- **The loop writes the text of the entries without repetitions.** -/
theorem Sound.out_writeFrom {b : Builder} (h : b.Sound) :
    (b.writeFrom {} none b.log.sorted).out = b.writeMappings := by
  have hregistered : ∀ m ∈ b.log.sorted, b.Registered m := fun m hm =>
    h.registered (b.log.perm_sorted.mem_iff.mp hm)
  rw [writeMappings, Entry.encodeAll]
  cases hms : b.log.sorted with
  | nil => rfl
  | cons m ms =>
      rw [hms] at hregistered
      obtain ⟨rest, herase, hwrite⟩ := writeFrom_some (d := Entry.Draft.write {} (b.entry m))
        (fun a ha => hregistered a (List.mem_cons_of_mem m ha)) rfl
        (Entry.line_after {} (b.entry m))
      have hfirst : b.writeNext (.ofDraft {}) none m = _ :=
        (hregistered m List.mem_cons_self).writeNext_eq rfl nofun
      show (b.writeFrom (b.writeNext (.ofDraft {}) none m) (some m) ms).out = _
      rw [hfirst, hwrite, herase]
      rfl

end SourceMap.Builder

import Mathlib
import SourceMap.Proofs.LoadedMap
import SourceMap.Proofs.Nearest
import SourceMap.Proofs.SourceRoot

/-!
# Sources by their full names

A flat map tells its sources by their full names, and looks a source up by the name as it is seen
from the root. Where this is the name that the source is kept under, which it is for every name that
can be reversed, the place of each listed mapping leads back to it
(`generatedPositionFor_sourceNames`).
-/

set_option autoImplicit false

namespace SourceMap

namespace LoadedMap

/-- **A source that a map tells is understood when it is asked for.** Each listed mapping comes from
a source that the map keeps under some name. If this name can be reversed, it is how the source is
seen from the root, and then the place of the mapping leads to a mapping with that place, and the
mapping itself is among all that are found there. This is about string tables whose slots have
numbers of 32 bits. -/
theorem generatedPositionFor_sourceNames {r : Record} {f : FlatMap}
    (h : FlatMap.ofRecord r = .ok f) (hnodup : f.sourceNames.Nodup) {listed : List Mapping}
    (hlisted : (LoadedMap.flat f).mappings .generated = .ok listed) {a : Mapping}
    (ha : a ∈ listed) {o : OriginalLocation} (ho : a.original = some o) :
    ∃ name ∈ f.sources.toList, SourceRoot.resolve f.root name = o.source ∧
      (SourceRoot.Reversible f.root name → SourceRoot.relativize f.root o.source = name) ∧
      (SourceRoot.relativize f.root o.source = name →
        (∀ bias, ∃ answer,
          (LoadedMap.flat f).generatedPositionFor o.source o.position bias = .ok answer ∧
            ∃ b ∈ listed, b.original = some o ∧ answer.IsAt b.generated) ∧
        ∃ answers, (LoadedMap.flat f).allGeneratedPositionsFor o.source o.position.line
            (some o.position.column) = .ok answers ∧ ∃ g ∈ answers, g.IsAt a.generated) := by
  obtain ⟨v, hview, rfl⟩ := map_eq_ok_iff.mp hlisted
  have hv : f.view = .ok v := hview
  have hsound : v.Sound := (Sound.ofFlat h).view hview
  obtain ⟨e, he, slot, -, hplace, hsource⟩ := View.exists_entry ha ho
  obtain ⟨name, hname, -, hfull⟩ := FlatMap.exists_name hv (hsound.slot_lt he hplace)
  rw [hsource] at hfull
  refine ⟨name, hname, hfull.symm, ?_, ?_⟩
  · intro hreversible
    rw [hfull]
    exact hreversible.relativize_resolve
  · intro hback
    rw [hfull] at hback
    have hknows := FlatMap.knows_of_relativize hv hnodup hname hback
    rw [← hfull] at hknows
    constructor
    · intro bias
      obtain ⟨b, hb, hbo, hat⟩ := View.exists_exact hsound ha ho hknows bias
      exact ⟨_, generatedPositionFor_flat hv o.source o.position bias, b, hb, hbo, hat⟩
    · refine ⟨v.allGeneratedPositionsFor o.source o.position.line (some o.position.column), ?_, ?_⟩
      · rw [allGeneratedPositionsFor, hview, ok_map]
      · exact View.exists_allGeneratedPositionsFor hsound ha ho hknows

/-- An absolute source that is not below the root, but below the directory above it. -/
theorem generatedPositionFor_sourceNames_above :
    let r : Record :=
      { version := some 3, sourceRoot := some "/lib/x", sources := some [some "/lib/a.js"]
        mappings := some "AAAA" }
    let o : OriginalLocation := ⟨"/lib/a.js", ⟨1, 0⟩⟩
    let listed : List Mapping := [{ generated := ⟨1, 0⟩, original := some o }]
    ∃ f, FlatMap.ofRecord r = .ok f ∧ f.sourceNames.Nodup ∧
      (LoadedMap.flat f).mappings .generated = .ok listed ∧
      f.sources.toList = ["../a.js"] ∧ SourceRoot.Reversible f.root "../a.js" ∧
      ∀ bias, ∃ answer,
        (LoadedMap.flat f).generatedPositionFor "/lib/a.js" ⟨1, 0⟩ bias = .ok answer ∧
          ∃ b ∈ listed, b.original = some o ∧ answer.IsAt b.generated := by
  intro r o listed
  have hstored : FlatMap.storedSource (some "/lib/x") (some "/lib/a.js") = "../a.js" := by
    cbv
  have hlisted : (FlatMap.ofRecord r).bind (fun f => (LoadedMap.flat f).mappings .generated) =
      .ok listed := by
    cbv
  obtain ⟨f, hf⟩ : ∃ f, FlatMap.ofRecord r = .ok f := ⟨_, rfl⟩
  rw [hf] at hlisted
  have hloads := FlatMap.loads_of_ofRecord hf
  have hroot : f.root = some "/lib/x" := by
    rw [hloads.root]
    show (some "/lib/x").filter (!·.isEmpty) = some "/lib/x"
    simp
  have hsources : f.sources.toList = ["../a.js"] := by
    rw [hloads.sources, hroot, ← hstored]
    rfl
  have hnodup : f.sourceNames.Nodup := by
    rw [FlatMap.sourceNames, hsources]
    exact List.nodup_singleton _
  -- the name leads one step up from the root and down to the source
  have hreversible : SourceRoot.Reversible f.root "../a.js" := by
    have hrootChars : "/lib/x".toList = ['/', 'l', 'i', 'b', '/', 'x'] := rfl
    have hchars : "../a.js".toList = ['.', '.', '/', 'a', '.', 'j', 's'] := rfl
    have htidy : Path.Tidy "/lib/x".toList := by
      rw [hrootChars]
      show Path.normalizePath _ = _ ∧ _
      decide
    have hancestors : Path.ancestors "/lib/x".toList =
        [['/', 'l', 'i', 'b', '/', 'x']] ++ ['/', 'l', 'i', 'b'] :: [] := by
      rw [hrootChars]
      decide
    have hrest : Path.Descends ['a', '.', 'j', 's'] :=
      ⟨by decide, by decide, by decide, by decide⟩
    rw [hroot]
    refine .way htidy hancestors ?_ hrest ?_ ?_
    · intro b hb
      rw [List.mem_singleton.mp hb]
      decide
    · rw [hchars]
      decide
    · rw [hchars]
      decide
  obtain ⟨name, hname, -, hback, hanswers⟩ :=
    generatedPositionFor_sourceNames hf hnodup hlisted (List.mem_singleton_self _) (o := o) rfl
  rw [hsources, List.mem_singleton] at hname
  subst hname
  exact ⟨f, hf, hnodup, hlisted, hsources, hreversible, (hanswers (hback hreversible)).1⟩

/-- Under a root without a path an absolute source is told by a name that is not understood. -/
theorem generatedPositionFor_absolute_source :
    let r : Record :=
      { version := some 3, sourceRoot := some "http://x.com", sources := some [some "/b.js"]
        mappings := some "AAAA" }
    ∃ f, FlatMap.ofRecord r = .ok f ∧ f.sourceNames = ["http://x.com/b.js"] ∧
      (LoadedMap.flat f).mappings .generated = .ok
        [{ generated := ⟨1, 0⟩, original := some ⟨"http://x.com/b.js", ⟨1, 0⟩⟩ }] ∧
      (∀ bias, (LoadedMap.flat f).generatedPositionFor "http://x.com/b.js" ⟨1, 0⟩ bias = .ok {}) ∧
      (LoadedMap.flat f).allGeneratedPositionsFor "http://x.com/b.js" 1 (some 0) = .ok [] := by
  intro r
  have hnames : (FlatMap.ofRecord r).map FlatMap.sourceNames = .ok ["http://x.com/b.js"] := by
    cbv
  have hlisted : (FlatMap.ofRecord r).bind (fun f => (LoadedMap.flat f).mappings .generated) =
      .ok [{ generated := ⟨1, 0⟩, original := some ⟨"http://x.com/b.js", ⟨1, 0⟩⟩ }] := by
    cbv
  have hanswer (bias : Bias) : (FlatMap.ofRecord r).bind (fun f =>
      (LoadedMap.flat f).generatedPositionFor "http://x.com/b.js" ⟨1, 0⟩ bias) = .ok {} := by
    cases bias <;> cbv
  have hall : (FlatMap.ofRecord r).bind (fun f =>
      (LoadedMap.flat f).allGeneratedPositionsFor "http://x.com/b.js" 1 (some 0)) = .ok [] := by
    cbv
  obtain ⟨f, hf⟩ : ∃ f, FlatMap.ofRecord r = .ok f := ⟨_, rfl⟩
  rw [hf] at hnames hlisted hanswer hall
  exact ⟨f, hf, Except.ok.inj hnames, hlisted, hanswer, hall⟩

end LoadedMap

end SourceMap

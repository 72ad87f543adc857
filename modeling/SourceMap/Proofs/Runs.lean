import Mathlib
import SourceMap.Proofs.Alike
import SourceMap.Proofs.Lookups

/-!
# Runs of places

All the places that the code of an original line has gone to stand side by side in original order,
and so do those of one column of it. The query for all of them cuts this order at the first entry
that is not before the asked place and takes entries from there. It finds the start of the run that
is asked for, leaves nothing of it out and takes nothing from another line or source
(`allGeneratedPositionsFor_meaning`).
-/

set_option autoImplicit false

namespace SourceMap

open Search (Within)

/-! ## Runs in lists -/

section

variable {α : Type}

/-- Where only what is wanted comes before what is wanted, taking while it is wanted takes all. -/
theorem takeWhile_eq_filter {wanted : α → Bool} {xs : List α}
    (h : xs.Pairwise fun a b => wanted b → wanted a) :
    xs.takeWhile wanted = xs.filter wanted := by
  induction xs with
  | nil => rfl
  | cons x xs ih =>
      obtain ⟨hfirst, hrest⟩ := List.pairwise_cons.mp h
      by_cases hx : wanted x
      · rw [List.takeWhile_cons_of_pos hx, List.filter_cons_of_pos hx, ih hrest]
      · rw [List.takeWhile_cons_of_neg hx, List.filter_cons_of_neg hx]
        exact (List.filter_eq_nil_iff.mpr fun y hy hwanted => hx (hfirst y hy hwanted)).symm

/-- **A run is found whole.** If what is below comes first, and from there on only what is wanted
comes before what is wanted, then the run behind what is below has all that is wanted. -/
theorem takeWhile_dropWhile_eq_filter {below wanted : α → Bool} {xs : List α}
    (hbelow : xs.Pairwise fun a b => below b → below a)
    (hrun : xs.Pairwise fun a b => ¬ below a → wanted b → wanted a) :
    (xs.dropWhile below).takeWhile wanted = xs.filter fun x => !below x && wanted x := by
  induction xs with
  | nil => rfl
  | cons x xs ih =>
      obtain ⟨hfirst, hbelow'⟩ := List.pairwise_cons.mp hbelow
      by_cases hx : below x
      · rw [List.dropWhile_cons_of_pos hx, List.filter_cons_of_neg (by simp [hx])]
        exact ih hbelow' (List.pairwise_cons.mp hrun).2
      · -- nothing from here on is below
        have hnot {y : α} (hy : y ∈ x :: xs) : ¬ below y := by
          rcases List.mem_cons.mp hy with rfl | hy
          · exact hx
          · exact fun hbelowy => hx (hfirst y hy hbelowy)
        rw [List.dropWhile_cons_of_neg hx, takeWhile_eq_filter
          (hrun.imp_of_mem fun ha _ h => h (hnot ha))]
        refine List.filter_congr fun y hy => ?_
        rw [Bool.eq_false_iff.mpr (hnot hy), Bool.not_false, Bool.true_and]

/-- Lists of the same elements in the same order are equal, if elements that are equal by this order
stand in both of them in the same sequence. -/
theorem eq_of_pairwise_isLE {cmp : α → α → Ordering} [Std.TransCmp cmp] {xs : List α} :
    ∀ {ys : List α}, xs.Perm ys → xs.Pairwise (fun a b => (cmp a b).isLE) →
      ys.Pairwise (fun a b => (cmp a b).isLE) →
      (∀ a ∈ xs, xs.filter (fun b => cmp b a == .eq) = ys.filter fun b => cmp b a == .eq) →
      xs = ys := by
  have hself (a : α) : cmp a a = .eq := Std.ReflCmp.compare_self
  have hle {a b : α} {as : List α} (ha : ∀ c ∈ as, (cmp a c).isLE) (hb : b ∈ a :: as) :
      (cmp a b).isLE := by
    rcases List.mem_cons.mp hb with rfl | hb
    · rw [hself]
      rfl
    · exact ha b hb
  induction xs with
  | nil => exact fun hperm _ _ _ => (List.nil_perm.mp hperm).symm
  | cons x xs ih =>
      intro ys hperm hxs hys hsame
      cases ys with
      | nil => exact absurd hperm.symm (by simp)
      | cons y ys =>
          obtain ⟨hx, hxs'⟩ := List.pairwise_cons.mp hxs
          obtain ⟨hy, hys'⟩ := List.pairwise_cons.mp hys
          -- each head is first in its list, so they are equal by the order
          have hyx : cmp y x = .eq := Std.OrientedCmp.isLE_antisymm
            (hle hy (hperm.mem_iff.mp List.mem_cons_self))
            (hle hx (hperm.mem_iff.mpr List.mem_cons_self))
          have hheads := hsame x List.mem_cons_self
          rw [List.filter_cons, List.filter_cons, hself, hyx] at hheads
          obtain ⟨rfl, -⟩ := List.cons.inj hheads
          refine congrArg _ (ih hperm.cons_inv hxs' hys' fun a ha => ?_)
          have hfilter := hsame a (List.mem_cons_of_mem x ha)
          rw [List.filter_cons, List.filter_cons] at hfilter
          by_cases hxa : (cmp x a == .eq) = true
          · rw [if_pos hxa, if_pos hxa] at hfilter
            exact (List.cons.inj hfilter).2
          · rwa [if_neg hxa, if_neg hxa] at hfilter

end

/-! ## All entries from a place -/

theorem Entry.any_place_iff {p : Place → Prop} [DecidablePred p] {e : Entry} :
    (e.place?.any fun q => p q) = true ↔ ∃ q, e.place? = some q ∧ p q := by
  simp only [Option.any_eq_true, decide_eq_true_iff]

/-- By original column, then by generated column, generated line and name. -/
def Entry.listingOrder : Entry → Entry → Ordering :=
  compareLex (compareOn fun e => e.place?.map fun q => q.position.column) Entry.targetOrder

instance : Std.TransCmp Entry.listingOrder :=
  inferInstanceAs (Std.TransCmp (compareLex
    (compareOn fun e : Entry => e.place?.map fun q => q.position.column) Entry.targetOrder))

/-- Whether a list has the entries that come from certain places, each as often as it is there, by
original column, generated column, generated line and name, and repetitions in their old order. -/
structure Enumerates (es : List Entry) (p : Place → Prop) [DecidablePred p] (found : List Entry) :
    Prop where
  perm : found.Perm (es.filter fun e => e.place?.any fun q => p q)
  ordered : found.Pairwise fun a b => (a.listingOrder b).isLE
  stable : ∀ e ∈ found, found.filter e.repeats = es.filter e.repeats

/-- Whether `L` is the first line from `line` on that entries of a source come from. -/
structure FirstLine (es : List Entry) (slot : Nat) (line L : UInt32) : Prop where
  le : line ≤ L
  mem : ∃ e ∈ es, ∃ column, e.place? = some ⟨slot, ⟨L, column⟩⟩
  least : ∀ e ∈ es, ∀ q, e.place? = some ⟨slot, q⟩ → line ≤ q.line → L ≤ q.line

/-- Whether `C` is the first column from `column` on that entries of a line come from. -/
structure FirstColumn (es : List Entry) (slot : Nat) (line column C : UInt32) : Prop where
  le : column ≤ C
  mem : ∃ e ∈ es, e.place? = some ⟨slot, ⟨line, C⟩⟩
  least : ∀ e ∈ es, ∀ c, e.place? = some ⟨slot, ⟨line, c⟩⟩ → column ≤ c → C ≤ c

/-- Which entries are asked for by a line of the source in a slot, if there is one, and maybe by a
column. Without a column it is all of the first line from the given one on that has any. With one it
is all of the first column from there on that has any on this very line. -/
inductive AnswersAll (es : List Entry) (line : UInt32) :
    Option UInt32 → Option Nat → List Entry → Prop
  | unknown {column : Option UInt32} : AnswersAll es line column none []
  | noLine {slot : Nat} : (∀ e ∈ es, ∀ q, e.place? = some ⟨slot, q⟩ → ¬ line ≤ q.line) →
      AnswersAll es line none (some slot) []
  | ofLine {slot : Nat} {L : UInt32} {found : List Entry} : FirstLine es slot line L →
      Enumerates es (fun q => q.source = slot ∧ q.position.line = L) found →
      AnswersAll es line none (some slot) found
  | noColumn {slot : Nat} {column : UInt32} :
      (∀ e ∈ es, ∀ c, e.place? = some ⟨slot, ⟨line, c⟩⟩ → ¬ column ≤ c) →
      AnswersAll es line (some column) (some slot) []
  | ofColumn {slot : Nat} {column C : UInt32} {found : List Entry} :
      FirstColumn es slot line column C → Enumerates es (· = ⟨slot, ⟨line, C⟩⟩) found →
      AnswersAll es line (some column) (some slot) found

/-! ## What is listed -/

namespace Enumerates

variable {es found found' : List Entry} {p : Place → Prop} [DecidablePred p]

theorem exists_place (h : Enumerates es p found) {e : Entry} (he : e ∈ found) :
    ∃ q, e.place? = some q ∧ p q :=
  Entry.any_place_iff.mp (List.mem_filter.mp (h.perm.mem_iff.mp he)).2

/-- Entries of one line in original order are by column, and then by target. -/
theorem originalOrder_eq {a b : Entry} {q r : Place} (ha : a.place? = some q)
    (hb : b.place? = some r) (h : q.source = r.source ∧ q.position.line = r.position.line) :
    a.originalOrder b = a.listingOrder b := by
  have hcolumn : compare (some q) (some r) =
      compare (some q.position.column) (some r.position.column) := by
    show (compare q.source r.source).then ((compare q.position.line r.position.line).then
      (compare q.position.column r.position.column)) = compare q.position.column r.position.column
    rw [h.1, h.2, Std.ReflOrd.compare_self, Std.ReflOrd.compare_self]
    rfl
  show (compare a.place? b.place?).then (a.targetOrder b) =
    (compare (a.place?.map fun q => q.position.column)
      (b.place?.map fun q => q.position.column)).then (a.targetOrder b)
  rw [ha, hb, hcolumn]
  rfl

/-- On one line there is one list of all entries. -/
theorem unique (hline : ∀ q r, p q → p r → q.source = r.source ∧ q.position.line = r.position.line)
    (h : Enumerates es p found) (h' : Enumerates es p found') : found = found' := by
  have hequal {gs : List Entry} (hgs : Enumerates es p gs) {a : Entry} (ha : a ∈ gs) :
      gs.filter (fun b => b.listingOrder a == .eq) = es.filter a.repeats := by
    rw [← hgs.stable a ha]
    refine List.filter_congr fun b hb => ?_
    obtain ⟨q, hq, hpq⟩ := hgs.exists_place ha
    obtain ⟨r, hr, hpr⟩ := hgs.exists_place hb
    rw [← Entry.originalOrder_beq_eq, originalOrder_eq hr hq (hline r q hpr hpq)]
  have hperm := h.perm.trans h'.perm.symm
  refine eq_of_pairwise_isLE hperm h.ordered h'.ordered fun a ha => ?_
  rw [hequal h ha, hequal h' (hperm.mem_iff.mp ha)]

/-- The entries of a line in original order are a list of all of them. -/
theorem of_original (t : MappingTable)
    (hline : ∀ q r, p q → p r → q.source = r.source ∧ q.position.line = r.position.line) :
    Enumerates t.generated.toList p
      (t.original.toList.filter fun e => e.place?.any fun q => p q) := by
  have hplace {e : Entry} (he : e ∈ t.original.toList.filter fun e => e.place?.any fun q => p q) :
      ∃ q, e.place? = some q ∧ p q :=
    Entry.any_place_iff.mp (List.mem_filter.mp he).2
  constructor
  · have hsome : (fun e : Entry => (e.place?.any fun q => p q) && e.origin.isSome) =
        fun e => e.place?.any fun q => p q := by
      funext e
      rw [Bool.and_eq_left_iff_imp, Entry.place?]
      cases e.origin with
      | none => exact id
      | some _ => exact fun _ => rfl
    have hperm := t.perm_original.filter fun e => e.place?.any fun q => p q
    rwa [List.filter_filter, hsome] at hperm
  · refine (t.pairwise_original.filter _).imp_of_mem fun ha hb hle => ?_
    obtain ⟨q, hq, hpq⟩ := hplace ha
    obtain ⟨r, hr, hpr⟩ := hplace hb
    rwa [← originalOrder_eq hq hr (hline q r hpq hpr)]
  · intro e he
    obtain ⟨q, hq, hpq⟩ := hplace he
    have hsome : e.origin.isSome := by
      obtain ⟨origin, horigin, -⟩ := Option.map_eq_some_iff.mp hq
      rw [horigin]
      rfl
    rw [List.filter_filter, ← t.filter_original hsome]
    refine List.filter_congr fun c _ => ?_
    rw [Bool.and_eq_left_iff_imp]
    intro hrepeats
    -- a repetition is at the same place
    rw [Entry.repeats_iff.mp hrepeats]
    exact Entry.any_place_iff.mpr ⟨q, hq, hpq⟩

end Enumerates

theorem FirstLine.unique {es : List Entry} {slot : Nat} {line L L' : UInt32}
    (h : FirstLine es slot line L) (h' : FirstLine es slot line L') : L = L' := by
  obtain ⟨e, he, column, hplace⟩ := h.mem
  obtain ⟨e', he', column', hplace'⟩ := h'.mem
  exact UInt32.le_antisymm (h.least e' he' _ hplace' h'.le) (h'.least e he _ hplace h.le)

theorem FirstColumn.unique {es : List Entry} {slot : Nat} {line column C C' : UInt32}
    (h : FirstColumn es slot line column C) (h' : FirstColumn es slot line column C') : C = C' := by
  obtain ⟨e, he, hplace⟩ := h.mem
  obtain ⟨e', he', hplace'⟩ := h'.mem
  exact UInt32.le_antisymm (h.least e' he' _ hplace' h'.le) (h'.least e he _ hplace h.le)

/-- One list of entries is asked for. -/
theorem AnswersAll.unique {es : List Entry} {line : UInt32} {column : Option UInt32}
    {slot? : Option Nat} {found found' : List Entry} (h : AnswersAll es line column slot? found)
    (h' : AnswersAll es line column slot? found') : found = found' := by
  cases h with
  | unknown =>
      cases h'
      rfl
  | noLine hnone =>
      cases h' with
      | noLine _ => rfl
      | ofLine hfirst _ =>
          obtain ⟨e, he, column, hplace⟩ := hfirst.mem
          exact absurd hfirst.le (hnone e he _ hplace)
  | ofLine hfirst h =>
      cases h' with
      | noLine hnone =>
          obtain ⟨e, he, column, hplace⟩ := hfirst.mem
          exact absurd hfirst.le (hnone e he _ hplace)
      | ofLine hfirst' h' =>
          obtain rfl := hfirst.unique hfirst'
          exact h.unique (fun q r hq hr => ⟨hq.1.trans hr.1.symm, hq.2.trans hr.2.symm⟩) h'
  | noColumn hnone =>
      cases h' with
      | noColumn _ => rfl
      | ofColumn hfirst _ =>
          obtain ⟨e, he, hplace⟩ := hfirst.mem
          exact absurd hfirst.le (hnone e he _ hplace)
  | ofColumn hfirst h =>
      cases h' with
      | noColumn hnone =>
          obtain ⟨e, he, hplace⟩ := hfirst.mem
          exact absurd hfirst.le (hnone e he _ hplace)
      | ofColumn hfirst' h' =>
          obtain rfl := hfirst.unique hfirst'
          refine h.unique (fun q r hq hr => ?_) h'
          rw [hq, hr]
          exact ⟨rfl, rfl⟩

/-! ## What is found -/

namespace View

theorem comesFrom_line (slot : Nat) (line : UInt32) :
    comesFrom slot line none = fun e => e.place?.any fun q =>
      decide (q.source = slot ∧ q.position.line = line) := by
  funext e
  rw [comesFrom]
  cases e.place? with
  | none => rfl
  | some q =>
      dsimp only [Option.any_some]
      rw [Bool.eq_iff_iff]
      simp only [Option.isNone_none, Bool.true_or, Bool.and_true, Bool.and_eq_true, beq_iff_eq,
        decide_eq_true_iff]

theorem comesFrom_column (slot : Nat) (line column : UInt32) :
    comesFrom slot line (some column) = fun e => e.place?.any fun q =>
      decide (q = ⟨slot, ⟨line, column⟩⟩) := by
  funext e
  rw [comesFrom]
  cases e.place? with
  | none => rfl
  | some q =>
      obtain ⟨source, ⟨l, c⟩⟩ := q
      dsimp only [Option.any_some]
      rw [Bool.eq_iff_iff]
      simp only [Option.isNone_some, Bool.false_or, Bool.and_eq_true, beq_iff_eq, Option.some.injEq,
        decide_eq_true_iff, Place.mk.injEq, Position.mk.injEq, and_assoc, eq_comm (a := column)]

end View

/-- Whether an entry is before a place. -/
def Entry.isBefore (place : Place) (e : Entry) : Bool :=
  compare e.place? (some place) == .lt

theorem Entry.within_of_not_isBefore {place q : Place} {e : Entry} (hplace : e.place? = some q)
    (h : ¬ e.isBefore place) : Within (some place) .leastUpperBound (some q) := by
  rw [isBefore, hplace, beq_iff_eq] at h
  show (compare (some place) (some q)).isLE
  cases hcompare : compare (some place) (some q) with
  | lt => rfl
  | eq => rfl
  | gt => exact absurd (Std.OrientedCmp.lt_of_gt hcompare) h

theorem Entry.not_isBefore_of_within {place q : Place} {e : Entry} (hplace : e.place? = some q)
    (h : Within (some place) .leastUpperBound (some q)) : ¬ e.isBefore place := by
  rw [isBefore, hplace, beq_iff_eq]
  intro hlt
  have hle : (compare (some place) (some q)).isLE := h
  rw [Std.OrientedCmp.gt_of_lt hlt] at hle
  cases hle

/-- **The run from the nearest entry on.** From a place on, the entries that are wanted are all
taken, if they are of the source of the place and so is whatever is between the nearest entry of
this source and one of them. -/
theorem NearestInSource.takeWhile_eq {t : MappingTable} {slot : Nat} {p q : Position} {e : Entry}
    (h : NearestInSource t.generated.toList slot p .leastUpperBound e q) (wanted : Place → Prop)
    [DecidablePred wanted] (hslot : ∀ r, wanted r → r.source = slot)
    (hbetween : ∀ r s, Within q .leastUpperBound r → Within r .leastUpperBound s →
      wanted (.mk slot s) → wanted (.mk slot r)) :
    (t.original.toList.dropWhile (Entry.isBefore ⟨slot, p⟩)).takeWhile
        (fun c => c.place?.any fun r => wanted r) =
      t.original.toList.filter fun c =>
        !c.isBefore ⟨slot, p⟩ && c.place?.any fun r => wanted r := by
  have hsorted : t.original.toList.Pairwise fun a b => (compare a.place? b.place?).isLE :=
    t.pairwise_original.imp isLE_of_compareLex
  refine takeWhile_dropWhile_eq_filter (hsorted.imp fun hle hbefore => ?_)
    (hsorted.imp_of_mem fun {a b} ha hb hle hbefore hwanted => ?_)
  · exact beq_iff_eq.mpr (Std.TransCmp.lt_of_isLE_of_lt hle (beq_iff_eq.mp hbefore))
  · obtain ⟨hlisted, ⟨source, r⟩, hplace⟩ :=
      MappingTable.mem_original_iff.mp (Array.mem_toList_iff.mp ha)
    obtain ⟨⟨source', s⟩, hplace', hw⟩ := Entry.any_place_iff.mp hwanted
    obtain rfl : source' = slot := hslot _ hw
    have hfrom := Entry.within_of_not_isBefore hplace hbefore
    have hto : Within (some (Place.mk source r)) .leastUpperBound (some (Place.mk source' s)) := by
      rwa [hplace, hplace'] at hle
    -- what is between two places of a source is of this source
    obtain rfl : source = source' := Place.source_eq_of_within hfrom hto rfl
    have hnear := h.nearest a hlisted r hplace (Place.within_iff.mp hfrom)
    rw [hplace]
    exact decide_eq_true (hbetween r s hnear (Place.within_iff.mp hto) hw)

/-- If moreover only what is not before the place is wanted, then all that is wanted is taken. -/
theorem NearestInSource.run_eq {t : MappingTable} {slot : Nat} {p q : Position} {e : Entry}
    (h : NearestInSource t.generated.toList slot p .leastUpperBound e q) (wanted : Place → Prop)
    [DecidablePred wanted] (hslot : ∀ r, wanted r → r.source = slot)
    (hbetween : ∀ r s, Within q .leastUpperBound r → Within r .leastUpperBound s →
      wanted (.mk slot s) → wanted (.mk slot r))
    (hfrom : ∀ r, wanted (.mk slot r) → Within p .leastUpperBound r) :
    (t.original.toList.dropWhile (Entry.isBefore ⟨slot, p⟩)).takeWhile
        (fun c => c.place?.any fun r => wanted r) =
      t.original.toList.filter fun c => c.place?.any fun r => wanted r := by
  rw [h.takeWhile_eq wanted hslot hbetween]
  refine List.filter_congr fun c _ => ?_
  rw [Bool.and_eq_right_iff_imp, Bool.not_eq_true', ← Bool.not_eq_true]
  intro hwanted
  obtain ⟨⟨source, r⟩, hplace, hw⟩ := Entry.any_place_iff.mp hwanted
  obtain rfl : source = slot := hslot _ hw
  exact Entry.not_isBefore_of_within hplace (Place.within_iff.mpr (hfrom r hw))

/-! ## Lines and columns -/

namespace Position

/-- From the first column of a line on there are this line and those below it. -/
theorem within_start {line : UInt32} {q : Position} :
    Within ⟨line, 0⟩ .leastUpperBound q ↔ line ≤ q.line := by
  rw [Within, isLE_iff, UInt32.le_iff_toNat_le]
  simp only [UInt32.reduceToNat]
  omega

/-- On a line the columns decide. -/
theorem within_column {line column column' : UInt32} :
    Within (Position.mk line column) .leastUpperBound ⟨line, column'⟩ ↔ column ≤ column' := by
  rw [Within, isLE_iff, UInt32.le_iff_toNat_le]
  simp only [true_and, lt_self_iff_false, false_or]

theorem le_line_of_within {p q : Position} (h : Within p .leastUpperBound q) :
    p.line ≤ q.line := by
  rw [Within, isLE_iff] at h
  rw [UInt32.le_iff_toNat_le]
  omega

end Position

namespace NearestInSource

open View (comesFrom comesFrom_line comesFrom_column)
open Position (within_start within_column le_line_of_within)

variable {t : MappingTable} {slot : Nat} {line column : UInt32} {q : Position} {e : Entry}

/-- The line of the nearest entry is listed. -/
theorem answersAll_line
    (h : NearestInSource t.generated.toList slot ⟨line, 0⟩ .leastUpperBound e q) :
    AnswersAll t.generated.toList line none (some slot)
      ((t.original.toList.dropWhile (Entry.isBefore ⟨slot, ⟨line, 0⟩⟩)).takeWhile
        (comesFrom slot q.line none)) := by
  have hle := le_line_of_within h.within
  have hrun := h.run_eq (fun r => r.source = slot ∧ r.position.line = q.line) (fun r hr => hr.1)
    (fun r s hr hs hline => ⟨rfl, Position.line_eq_of_within hr hs hline.2.symm⟩)
    (fun r hr => within_start.mpr (hr.2 ▸ hle))
  rw [comesFrom_line, hrun]
  refine .ofLine (L := q.line) ⟨hle, ⟨e, h.mem, q.column, h.place⟩, ?_⟩ ?_
  · intro c hc r hplace hline
    exact le_line_of_within (h.nearest c hc r hplace (within_start.mpr hline))
  · exact .of_original t fun r s hr hs => ⟨hr.1.trans hs.1.symm, hr.2.trans hs.2.symm⟩

/-- The column of the nearest entry is listed if it is of the line, and else there is none. -/
theorem answersAll_column
    (h : NearestInSource t.generated.toList slot ⟨line, column⟩ .leastUpperBound e q) :
    AnswersAll t.generated.toList line (some column) (some slot)
      ((t.original.toList.dropWhile (Entry.isBefore ⟨slot, ⟨line, column⟩⟩)).takeWhile
        (comesFrom slot line (some q.column))) := by
  have hslot (r : Place) (hr : r = ⟨slot, ⟨line, q.column⟩⟩) : r.source = slot := by rw [hr]
  rw [comesFrom_column]
  by_cases hline : q.line = line
  · obtain ⟨L, C⟩ := q
    obtain rfl : L = line := hline
    have hbetween (r s : Position) (hr : Within ⟨L, C⟩ .leastUpperBound r)
        (hs : Within r .leastUpperBound s) (hplace : Place.mk slot s = ⟨slot, ⟨L, C⟩⟩) :
        Place.mk slot r = ⟨slot, ⟨L, C⟩⟩ := by
      -- nothing else is between a position and itself
      obtain rfl : s = ⟨L, C⟩ := (Place.mk.inj hplace).2
      rw [Std.LawfulEqCmp.eq_of_compare (hr.antisymm hs)]
    rw [h.run_eq _ hslot hbetween fun r hr => (Place.mk.inj hr).2 ▸ h.within]
    refine .ofColumn (C := C) ⟨within_column.mp h.within, ⟨e, h.mem, h.place⟩, ?_⟩ ?_
    · intro c hc C' hplace hle
      exact within_column.mp (h.nearest c hc _ hplace (within_column.mpr hle))
    · refine .of_original t fun r s hr hs => ?_
      rw [hr, hs]
      exact ⟨rfl, rfl⟩
  · -- an entry of the line would be nearer than what is on a line below
    have hnone (s : Position) (hs : s.line = line) (hle : Within q .leastUpperBound s) : False :=
      hline (Position.line_eq_of_within h.within hle hs.symm)
    have hempty : (t.original.toList.dropWhile (Entry.isBefore ⟨slot, ⟨line, column⟩⟩)).takeWhile
        (fun c => c.place?.any fun r => decide (r = ⟨slot, ⟨line, q.column⟩⟩)) = [] := by
      rw [h.takeWhile_eq _ hslot fun r s hr hs hplace =>
        (hnone s (by rw [(Place.mk.inj hplace).2]) (hr.trans hs)).elim]
      refine List.filter_eq_nil_iff.mpr fun c hc hwanted => ?_
      obtain ⟨hbefore, hany⟩ := Bool.and_eq_true_iff.mp hwanted
      obtain ⟨r, hplace, rfl⟩ := Entry.any_place_iff.mp hany
      have hfrom := Entry.within_of_not_isBefore hplace (by simpa using hbefore)
      have hlisted := (MappingTable.mem_original_iff.mp (Array.mem_toList_iff.mp hc)).1
      exact hnone _ rfl (h.nearest c hlisted _ hplace (Place.within_iff.mp hfrom))
    rw [hempty]
    exact .noColumn fun c hc C hplace hle =>
      hnone _ rfl (h.nearest c hc _ hplace (within_column.mpr hle))

end NearestInSource

/-- **A view lists what its entries say** of a line of a source, or of a column of it. -/
theorem View.answersAll (v : View) (source : String) (line : UInt32) (column : Option UInt32) :
    ∃ found, v.allGeneratedPositionsFor source line column = found.map positionOf ∧
      AnswersAll v.table.generated.toList line column (v.sourceSlot? source) found := by
  rw [allGeneratedPositionsFor_eq]
  cases v.sourceSlot? source with
  | none => exact ⟨[], rfl, .unknown⟩
  | some slot =>
      dsimp only
      rcases findOriginal?_inSource v.table slot ⟨line, column.getD 0⟩ .leastUpperBound with
        ⟨e, q, hfind, h⟩ | ⟨hother, hnone⟩
      · rw [hfind, Option.bind_some, h.place]
        dsimp only
        rw [if_pos rfl]
        cases column with
        | none => exact ⟨_, rfl, h.answersAll_line⟩
        | some column => exact ⟨_, rfl, h.answersAll_column⟩
      · refine ⟨[], ?_, ?_⟩
        · cases hfind : (v.table.findOriginal? ⟨slot, ⟨line, column.getD 0⟩⟩ .leastUpperBound).bind
              (v.table.original[·]?) with
          | none => rfl
          | some e =>
              obtain ⟨place, hplace, hsource⟩ := hother e hfind
              rw [Option.bind_some, hplace]
              exact if_neg hsource
        · cases column with
          | none =>
              exact .noLine fun c hc q hplace hle =>
                hnone c hc q hplace (Position.within_start.mpr hle)
          | some column =>
              exact .noColumn fun c hc C hplace hle =>
                hnone c hc _ hplace (Position.within_column.mpr hle)

namespace LoadedMap

variable {m : LoadedMap} {v : View}

/-- **All places of a line are listed, and nothing else.** Whatever the entries of a map are, the
query for all places of a line without a column lists all entries of the first line of the source,
from the asked one on, that has any. With a column it lists all entries of the first column from
there on that has any on this very line. The list is in the order of original columns, generated
columns, generated lines and names, and is empty if there is no such line or column, or if the
source is unknown. The source is that of the first slot that the name leads to. This is about string
tables whose slots have numbers of 32 bits. -/
theorem allGeneratedPositionsFor_meaning (hv : m.view = .ok v) (source : String) (line : UInt32)
    (column : Option UInt32) :
    ∃ found, m.allGeneratedPositionsFor source line column = .ok (found.map View.positionOf) ∧
      ∀ found', AnswersAll v.table.generated.toList line column
        (v.sources.toList.idxOf? (SourceRoot.relativize v.root source)) found' ↔
          found' = found := by
  obtain ⟨found, hfound, htells⟩ := v.answersAll source line column
  have hslot : v.sourceSlot? source =
      v.sources.toList.idxOf? (SourceRoot.relativize v.root source) :=
    StringTable.indexOf?_eq v.sources _
  rw [hslot] at htells
  refine ⟨found, ?_, fun found' => ⟨fun h => h.unique htells, ?_⟩⟩
  · rw [allGeneratedPositionsFor, hv, ok_map, hfound]
  · rintro rfl
    exact htells

/-- A line above those of the source, columns before and behind those of a line, and a source that
is unknown. -/
theorem allGeneratedPositionsFor_meaning_lines :
    let es : List Entry :=
      [{ generated := ⟨1, 0⟩, origin := some { place := ⟨1, ⟨1, 0⟩⟩ } },
        { generated := ⟨1, 5⟩, origin := some { place := ⟨0, ⟨2, 3⟩⟩ } },
        { generated := ⟨2, 2⟩, origin := some { place := ⟨0, ⟨2, 3⟩⟩ } },
        { generated := ⟨2, 2⟩, origin := some { place := ⟨0, ⟨2, 3⟩⟩ } },
        { generated := ⟨2, 4⟩, origin := some { place := ⟨0, ⟨4, 0⟩⟩ } },
        { generated := ⟨2, 6⟩, origin := some { place := ⟨0, ⟨2, 1⟩⟩ } }]
    let sources : StringTable := .ofList ["a.js", "b.js"] true
    let m : LoadedMap := .flat
      { file := none, root := some "lib", sources, names := .empty, contents := none
        table := .ok (.ofList es) }
    let v : View := { table := .ofList es, sources, names := .empty, root := some "lib" }
    let tells (line : UInt32) (column : Option UInt32) (slot? : Option Nat)
        (positions : List (UInt32 × UInt32)) : Prop :=
      ∃ found, AnswersAll (Entry.sortGenerated es) line column slot? found ∧
        found.map View.positionOf = positions.map fun p => { line := p.1, column := p.2 }
    Entry.decodeAll "ACAA,KDCG;EAAA,AAAA,EAEH,EAFC" { sources := 2, names := 0 } = .ok es ∧
      m.view = .ok v ∧ tells 1 none (some 0) [(2, 6), (2, 2), (2, 2), (1, 5)] ∧
      tells 2 (some 2) (some 0) [(2, 2), (2, 2), (1, 5)] ∧ tells 2 (some 4) (some 0) [] ∧
      tells 1 none none [] := by
  intro es sources m v tells
  have hdecode : Entry.decodeAll "ACAA,KDCG;EAAA,AAAA,EAEH,EAFC" { sources := 2, names := 0 } =
      .ok es := by cbv
  have hv : m.view = .ok v := rfl
  have hmeans (source : String) (line : UInt32) (column : Option UInt32) {slot? : Option Nat}
      (hslot : sources.toList.idxOf? (SourceRoot.relativize (some "lib") source) = slot?)
      {positions : List (UInt32 × UInt32)}
      (h : m.allGeneratedPositionsFor source line column =
        .ok (positions.map fun p => { line := p.1, column := p.2 })) :
      tells line column slot? positions := by
    obtain ⟨found, hfound, htells⟩ := allGeneratedPositionsFor_meaning hv source line column
    have hall := (htells found).mpr rfl
    refine ⟨found, ?_, Except.ok.inj (hfound.symm.trans h)⟩
    rwa [← hslot]
  have hknown : sources.toList.idxOf? (SourceRoot.relativize (some "lib") "lib/a.js") = some 0 := by
    cbv
  have hunknown : sources.toList.idxOf? (SourceRoot.relativize (some "lib") "lib/c.js") = none := by
    cbv
  refine ⟨hdecode, hv, hmeans _ _ _ hknown ?_, hmeans _ _ _ hknown ?_, hmeans _ _ _ hknown ?_,
    hmeans _ _ _ hunknown ?_⟩
  all_goals cbv

end LoadedMap

end SourceMap

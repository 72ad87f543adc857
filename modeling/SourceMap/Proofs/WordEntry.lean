import Mathlib
import SourceMap.Proofs.Text

/-!
# Entries in words

An entry can be kept in words alone. Where it has no place or no name, the largest word stands in
for the slot. For slots that are smaller, nothing is lost by this (`toEntry_ofEntry`), entries
compare in both orders as they do without it (`compareGenerated_ofEntry`,
`compareOriginal_ofEntry`), and so they are sorted alike (`sortGenerated_map_ofEntry`,
`sortOriginal_map_ofEntry`). The slots that are read of a text are smaller unless the tables hold
as many strings as there are words (`codable_of_decode`).
-/

set_option autoImplicit false

namespace SourceMap

/-! ## Entries -/

/-- A place in words. -/
structure WordPlace where
  source : UInt32
  line : UInt32
  column : UInt32
deriving DecidableEq

/-- By the three words, one after the other. -/
instance : Ord WordPlace :=
  ⟨compareLex (compareOn WordPlace.source)
    (compareLex (compareOn WordPlace.line) (compareOn WordPlace.column))⟩

/-- An entry in words. -/
structure WordEntry where
  generated : Position
  place : WordPlace
  /-- The slot of the name. -/
  name : UInt32
  lastColumn : Option UInt32 := none
deriving DecidableEq

namespace WordEntry

/-- What stands in for a slot that is absent. -/
def missing : UInt32 :=
  Coordinate.largest

/-- An entry without place or name. -/
def new (generated : Position) : WordEntry where
  generated
  place := { source := missing, line := missing, column := missing }
  name := missing

def withPlace (w : WordEntry) (source line column : UInt32) : WordEntry :=
  { w with place := { source, line, column } }

def withName (w : WordEntry) (name : UInt32) : WordEntry :=
  { w with name }

/-- The place, if there is one. Its first word tells. -/
def place? (w : WordEntry) : Option WordPlace :=
  if w.place.source = missing then none else some w.place

/-- The slot of the name, if there is one. -/
def name? (w : WordEntry) : Option UInt32 :=
  if w.name = missing then none else some w.name

/-- By generated position, then by place, then by name. -/
def compareGenerated : WordEntry → WordEntry → Ordering :=
  compareLex (compareOn WordEntry.generated)
    (compareLex (compareOn WordEntry.place?) (compareOn WordEntry.name?))

/-- By place, then by generated column, generated line and name. -/
def compareOriginal : WordEntry → WordEntry → Ordering :=
  compareLex (compareOn WordEntry.place?)
    (compareLex (compareOn fun w => w.generated.column)
      (compareLex (compareOn fun w => w.generated.line) (compareOn WordEntry.name?)))

/-- Entries by generated position. -/
def sortGenerated (ws : List WordEntry) : List WordEntry :=
  ws.mergeSort fun a b => (compareGenerated a b).isLE

/-- The entries that have a place, by place. -/
def sortOriginal (ws : List WordEntry) : List WordEntry :=
  (ws.filter fun w => w.place?.isSome).mergeSort fun a b => (compareOriginal a b).isLE

/-! ## Coding -/

/-- A place in words. -/
def ofPlace (p : Place) : WordPlace where
  source := UInt32.ofNat p.source
  line := p.position.line
  column := p.position.column

/-- An entry in words. -/
def ofEntry (e : Entry) : WordEntry :=
  let w := { new e.generated with lastColumn := e.lastColumn }
  match e.origin with
  | none => w
  | some o =>
    let p := ofPlace o.place
    let w := w.withPlace p.source p.line p.column
    match o.name with
    | none => w
    | some name => w.withName (UInt32.ofNat name)

/-- The place that words stand for. -/
def toPlace (p : WordPlace) : Place where
  source := p.source.toNat
  position := { line := p.line, column := p.column }

/-- The entry that words stand for. A name counts only beside a place. -/
def toEntry (w : WordEntry) : Entry where
  generated := w.generated
  origin := w.place?.map fun p => { place := toPlace p, name := w.name?.map UInt32.toNat }
  lastColumn := w.lastColumn

/-- Whether the slots of an entry are smaller than the largest word. -/
structure Codable (e : Entry) : Prop where
  source : ∀ p, e.place? = some p → p.source < Coordinate.largest.toNat
  name : ∀ n, e.name? = some n → n < Coordinate.largest.toNat

/-- The entries of small tables are codable. -/
theorem Codable.of_fits {sizes : TableSizes} {e : Entry} (h : e.Fits sizes)
    (hsources : sizes.sources ≤ Coordinate.largest.toNat)
    (hnames : sizes.names ≤ Coordinate.largest.toNat) : Codable e where
  source p hp := by
    obtain ⟨o, ho, rfl⟩ := Option.map_eq_some_iff.mp hp
    exact (h.source o ho).trans_le hsources
  name n hn := by
    obtain ⟨o, ho, hname⟩ := Option.bind_eq_some_iff.mp hn
    exact (h.name o ho n hname).trans_le hnames

/-- The entries that are read of a text with small tables are codable. -/
theorem codable_of_decode {text : String} {sizes : TableSizes} {t : MappingTable}
    (h : MappingTable.decode text sizes = .ok t)
    (hsources : sizes.sources ≤ Coordinate.largest.toNat)
    (hnames : sizes.names ≤ Coordinate.largest.toNat) {e : Entry} (he : e ∈ t.generated.toList) :
    Codable e :=
  .of_fits (MappingTable.fits_of_decode h he) hsources hnames

/-! ## Slots -/

theorem toNat_ofNat {n : Nat} (h : n < Coordinate.largest.toNat) : (UInt32.ofNat n).toNat = n :=
  UInt32.toNat_ofNat_of_lt' (h.trans Coordinate.largest.toNat_lt_size)

/-- No smaller slot is taken for one that is absent. -/
theorem ofNat_ne_missing {n : Nat} (h : n < Coordinate.largest.toNat) :
    UInt32.ofNat n ≠ missing := by
  intro heq
  have hn : n = missing.toNat := (toNat_ofNat h).symm.trans (congrArg UInt32.toNat heq)
  exact h.ne hn

theorem toPlace_ofPlace {p : Place} (h : p.source < Coordinate.largest.toNat) :
    toPlace (ofPlace p) = p := by
  simp [toPlace, ofPlace, toNat_ofNat h]

@[simp]
theorem generated_ofEntry (e : Entry) : (ofEntry e).generated = e.generated := by
  unfold ofEntry
  split
  · rfl
  · split <;> rfl

@[simp]
theorem lastColumn_ofEntry (e : Entry) : (ofEntry e).lastColumn = e.lastColumn := by
  unfold ofEntry
  split
  · rfl
  · split <;> rfl

theorem place?_ofEntry {e : Entry} (h : Codable e) : (ofEntry e).place? = e.place?.map ofPlace := by
  cases ho : e.origin with
  | none => simp [ofEntry, Entry.place?, ho, place?, new]
  | some o =>
      have hsource : (ofPlace o.place).source ≠ missing :=
        ofNat_ne_missing (h.source o.place (by simp [Entry.place?, ho]))
      have hplace : (ofEntry e).place = ofPlace o.place := by
        simp only [ofEntry, ho]
        split <;> rfl
      simp [place?, hplace, hsource, Entry.place?, ho]

theorem name?_ofEntry {e : Entry} (h : Codable e) :
    (ofEntry e).name? = e.name?.map UInt32.ofNat := by
  cases hn : e.name? with
  | none =>
      have hname : (ofEntry e).name = missing := by
        cases ho : e.origin with
        | none => simp [ofEntry, ho, new]
        | some o =>
            have hnone : o.name = none := by simpa [Entry.name?, ho] using hn
            simp [ofEntry, ho, hnone, withPlace, new]
      simp [name?, hname]
  | some n =>
      obtain ⟨o, ho, hsome⟩ := Option.bind_eq_some_iff.mp hn
      have hname : (ofEntry e).name = UInt32.ofNat n := by simp [ofEntry, ho, hsome, withName]
      simp [name?, hname, ofNat_ne_missing (h.name n hn)]

/-- **Words stand for the entry they were made of.** -/
theorem toEntry_ofEntry {e : Entry} (h : Codable e) : toEntry (ofEntry e) = e := by
  have hplace := place?_ofEntry h
  have hname := name?_ofEntry h
  cases ho : e.origin with
  | none =>
      cases e
      simp_all [toEntry, Entry.place?]
  | some o =>
      have hsource := h.source o.place (by simp [Entry.place?, ho])
      have hnames : (o.name.map UInt32.ofNat).map UInt32.toNat = o.name := by
        cases hn : o.name with
        | none => rfl
        | some n =>
            have hlt := h.name n (by simp [Entry.name?, ho, hn])
            simp [toNat_ofNat hlt]
      have horigin : (toEntry (ofEntry e)).origin = e.origin := by
        simp [toEntry, hplace, hname, Entry.place?, Entry.name?, ho, toPlace_ofPlace hsource,
          -Option.map_map, hnames]
      cases e
      simp_all [toEntry]

/-! ## Order -/

/-- Optional values compare as they do after a function that keeps their order. -/
theorem compare_map {α β : Type} [Ord α] [Ord β] {f : α → β} {x y : Option α}
    (h : ∀ a b, x = some a → y = some b → compare (f a) (f b) = compare a b) :
    compare (x.map f) (y.map f) = compare x y := by
  cases x with
  | none => cases y <;> rfl
  | some a =>
      cases y with
      | none => rfl
      | some b => exact h a b rfl rfl

theorem compare_ofNat {m n : Nat} (hm : m < Coordinate.largest.toNat)
    (hn : n < Coordinate.largest.toNat) :
    compare (UInt32.ofNat m) (UInt32.ofNat n) = compare m n := by
  have hlt : UInt32.ofNat m < UInt32.ofNat n ↔ m < n := by
    rw [UInt32.lt_iff_toNat_lt, toNat_ofNat hm, toNat_ofNat hn]
  have heq : UInt32.ofNat m = UInt32.ofNat n ↔ m = n := by
    rw [← UInt32.toNat_inj, toNat_ofNat hm, toNat_ofNat hn]
  show compareOfLessAndEq _ _ = compareOfLessAndEq _ _
  simp [compareOfLessAndEq, hlt, heq]

theorem compare_ofPlace {p q : Place} (hp : p.source < Coordinate.largest.toNat)
    (hq : q.source < Coordinate.largest.toNat) :
    compare (ofPlace p) (ofPlace q) = compare p q := by
  have hsource := compare_ofNat hp hq
  have hposition : compare p.position q.position =
      (compare p.position.line q.position.line).then
        (compare p.position.column q.position.column) := rfl
  calc compare (ofPlace p) (ofPlace q)
    _ = (compare (UInt32.ofNat p.source) (UInt32.ofNat q.source)).then
        ((compare p.position.line q.position.line).then
          (compare p.position.column q.position.column)) := rfl
    _ = (compare p.source q.source).then (compare p.position q.position) := by
        rw [hsource, hposition]
    _ = compare p q := rfl

theorem compare_place?_ofEntry {a b : Entry} (ha : Codable a) (hb : Codable b) :
    compare (ofEntry a).place? (ofEntry b).place? = compare a.place? b.place? := by
  rw [place?_ofEntry ha, place?_ofEntry hb]
  exact compare_map fun p q hp hq => compare_ofPlace (ha.source p hp) (hb.source q hq)

theorem compare_name?_ofEntry {a b : Entry} (ha : Codable a) (hb : Codable b) :
    compare (ofEntry a).name? (ofEntry b).name? = compare a.name? b.name? := by
  rw [name?_ofEntry ha, name?_ofEntry hb]
  exact compare_map fun m n hm hn => compare_ofNat (ha.name m hm) (hb.name n hn)

/-- **Words compare by generated position as entries do.** -/
theorem compareGenerated_ofEntry {a b : Entry} (ha : Codable a) (hb : Codable b) :
    compareGenerated (ofEntry a) (ofEntry b) = Entry.generatedOrder a b := by
  simp only [compareGenerated, Entry.generatedOrder, compareLex, compareOn, generated_ofEntry,
    compare_place?_ofEntry ha hb, compare_name?_ofEntry ha hb]

/-- **Words compare by place as entries do.** -/
theorem compareOriginal_ofEntry {a b : Entry} (ha : Codable a) (hb : Codable b) :
    compareOriginal (ofEntry a) (ofEntry b) = Entry.originalOrder a b := by
  simp only [compareOriginal, Entry.originalOrder, compareLex, compareOn, generated_ofEntry,
    compare_place?_ofEntry ha hb, compare_name?_ofEntry ha hb]

/-- **Words are sorted by generated position as entries are.** -/
theorem sortGenerated_map_ofEntry {es : List Entry} (h : ∀ e ∈ es, Codable e) :
    sortGenerated (es.map ofEntry) = (Entry.sortGenerated es).map ofEntry := by
  refine (List.map_mergeSort fun a ha b hb => ?_).symm
  rw [compareGenerated_ofEntry (h a ha) (h b hb)]

/-- **Words are sorted by place as entries are.** -/
theorem sortOriginal_map_ofEntry {es : List Entry} (h : ∀ e ∈ es, Codable e) :
    sortOriginal (es.map ofEntry) = (Entry.sortOriginal es).map ofEntry := by
  have hfilter : (es.map ofEntry).filter (fun w => w.place?.isSome) =
      (es.filter fun e => e.origin.isSome).map ofEntry := by
    rw [List.filter_map]
    congr 1
    refine List.filter_congr fun e he => ?_
    simp [place?_ofEntry (h e he), Entry.place?]
  rw [sortOriginal, Entry.sortOriginal, hfilter]
  refine (List.map_mergeSort fun a ha b hb => ?_).symm
  rw [compareOriginal_ofEntry (h a (List.mem_of_mem_filter ha)) (h b (List.mem_of_mem_filter hb))]

end WordEntry

end SourceMap

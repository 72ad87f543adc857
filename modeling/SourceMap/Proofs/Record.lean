import Mathlib
import SourceMap.Proofs.Record.Reading
import SourceMap.Proofs.Record.Writing

/-!
# Records written and read

Every record is read back from what is written for it, also after a guard (`parseWith_writeTo`).
Neither the spelling of its parts nor the reader is fixed: the parts are spelled in some way that
the grammar of JSON allows (`Printer.Lawful`), and the reader knows this grammar and takes the last
of repeated fields (`ReadsJson`). The spellings without blanks (`lawful_compact`) and the reader
`read` (`readsJson_read`) are of this kind.
-/

set_option autoImplicit false

namespace SourceMap

open Json (Value)

namespace Record

/-- Whether the parts of a record are spelled as the grammar of JSON has them. -/
def Printer.Lawful (p : Printer) : Prop :=
  p.Spells Value.SpelledBy

/-- Whether a reader gets a record from every JSON text in UTF-8 that describes this record, and
whose numbers are portable. A reader that takes no other text is one of this kind, and so is one
that takes more: of other bytes nothing is said. -/
def ReadsJson (read : ByteArray → Option Record) : Prop :=
  ∀ (text : String) (v : Value) (r : Record), v.DocumentSpelledBy text → v.Portable →
    Describes v r → read text.toUTF8 = some r

theorem lawful_compact : compact.Lawful where
  number w := Value.spelledBy_render (.nat w.toNat)
  string s := Value.spelledBy_render (.string s)
  strings ss := Value.spelledBy_render (.array (ss.map .string))
  nullables os := Value.spelledBy_render (.array (os.map .ofNullable))

/-- The bytes of a text are read as this text. -/
theorem fromUTF8?_toUTF8 (s : String) : String.fromUTF8? s.toUTF8 = some s :=
  dif_pos s.isValidUTF8

theorem readsJson_read : ReadsJson read := by
  intro text v r htext hportable hdescribes
  rw [read, fromUTF8?_toUTF8, Option.bind_some, hportable.parse?_eq htext, Option.bind_some,
    ofJson?_of_describes hdescribes]

/-! ## Guards -/

/-- Text that starts with a brace has no guard. -/
theorem dropGuard_brace {text : String} (h : text.toList.head? = some '\x7b') :
    dropGuard text.toUTF8.data.toList = text.toUTF8.data.toList := by
  obtain ⟨cs, hcs⟩ := List.head?_eq_some_iff.mp h
  obtain rfl : text = String.ofList ('\x7b' :: cs) := by rw [← hcs, String.ofList_toList]
  have hbytes : (String.ofList ('\x7b' :: cs)).toUTF8.data.toList =
      0x7B :: cs.utf8Encode.data.toList := by
    rw [String.toUTF8_eq_toByteArray, String.toByteArray_ofList, List.utf8Encode_cons,
      ByteArray.data_append, Array.toList_append]
    rfl
  rw [hbytes]
  rfl

/-- A guard ends with its line. -/
theorem dropGuard_guard {junk : List UInt8} (h : 0x0A ∉ junk) (body : List UInt8) :
    dropGuard (0x29 :: 0x5D :: 0x7D :: 0x27 :: (junk ++ 0x0A :: body)) = body := by
  have hdrop : (junk ++ 0x0A :: body).dropWhile (· != 0x0A) = 0x0A :: body := by
    rw [List.dropWhile_append_of_pos, List.dropWhile_cons_of_neg (by simp)]
    intro byte hbyte
    simp only [bne_iff_ne]
    rintro rfl
    exact h hbyte
  rw [dropGuard, hdrop]

/-! ## Documents -/

/-- What is left after a guard is read. -/
theorem parseWith_eq_ok {read : ByteArray → Option Record} {bytes : ByteArray} {text : String}
    {r : Record} (hguard : dropGuard bytes.data.toList = text.toUTF8.data.toList)
    (hread : read text.toUTF8 = some r) : parseWith read bytes = .ok r := by
  have hbytes : (⟨text.toUTF8.data.toList.toArray⟩ : ByteArray) = text.toUTF8 := rfl
  rw [parseWith, hguard, hbytes, hread]

theorem Printer.Lawful.head?_toList_writeTo {p : Printer} (hp : p.Lawful) (r : Record) :
    (writeTo p "" r).toList.head? = some '\x7b' := by
  have hspells := hp.spelledBy_writeTo r
  rw [toJson_eq, Value.ofFields_eq] at hspells
  obtain ⟨inner, heq, -⟩ := hspells
  rw [heq]
  rfl

/-- **What is written for a record is a JSON text that describes the record**, and whose numbers are
portable. -/
theorem Printer.Lawful.exists_documentSpelledBy_writeTo {p : Printer} (hp : p.Lawful) (r : Record) :
    ∃ v : Value, v.DocumentSpelledBy (writeTo p "" r) ∧ v.Portable ∧ Describes v r :=
  ⟨r.toJson, .of (hp.spelledBy_writeTo r), r.portable_toJson, r.describes_toJson⟩

/-- **Every record is read back from what is written**, also after a guard. -/
theorem parseWith_writeTo {p : Printer} (hp : p.Lawful) {read : ByteArray → Option Record}
    (hread : ReadsJson read) (r : Record) :
    parseWith read (writeTo p "" r).toUTF8 = .ok r ∧
    ∀ junk : ByteArray, 0x0A ∉ junk.data →
      parseWith read (")]\x7d'".toUTF8 ++ junk ++ "\n".toUTF8 ++ (writeTo p "" r).toUTF8) =
        .ok r := by
  obtain ⟨v, htext, hportable, hdescribes⟩ := hp.exists_documentSpelledBy_writeTo r
  have hrecord := hread _ v r htext hportable hdescribes
  constructor
  · exact parseWith_eq_ok (dropGuard_brace (hp.head?_toList_writeTo r)) hrecord
  · intro junk hjunk
    refine parseWith_eq_ok ?_ hrecord
    have hguarded : (")]\x7d'".toUTF8 ++ junk ++ "\n".toUTF8 ++
        (writeTo p "" r).toUTF8).data.toList = 0x29 :: 0x5D :: 0x7D :: 0x27 ::
          (junk.data.toList ++ 0x0A :: (writeTo p "" r).toUTF8.data.toList) := by
      simp only [ByteArray.data_append, Array.toList_append, List.append_assoc]
      rfl
    rw [hguarded]
    exact dropGuard_guard (by simpa using hjunk) _

/-- An index map with quotes, a null source and a character that is written by number. -/
theorem parseWith_writeTo_guarded :
    let flat : Record :=
      { version := some 3, sources := some [some "a \"b\".js", none],
        sourcesContent := some [some "\x01\\", none], mappings := some "" }
    let r : Record :=
      { version := some 3
        sections := some [{ offset := ⟨2, 0⟩, map := some flat }, { offset := ⟨7, 1⟩ }] }
    compact.Lawful ∧ ReadsJson read ∧ parse r.write.toUTF8 = .ok r ∧
      parse (")]\x7d'".toUTF8 ++ " while(1)".toUTF8 ++ "\n".toUTF8 ++ r.write.toUTF8) = .ok r := by
  intro flat r
  obtain ⟨hparse, hguarded⟩ := parseWith_writeTo lawful_compact readsJson_read r
  exact ⟨lawful_compact, readsJson_read, hparse, hguarded _ (by decide +kernel)⟩

end Record

end SourceMap

import SourceMap.Mapping
import SourceMap.Text.Quoted

/-!
# Errors

What can go wrong when a map is read, queried or built, as causes. `Error.message` words them; an
error inside a section of an index map keeps the section's index and the error of the section.
-/

set_option autoImplicit false

namespace SourceMap

/-- What held a value that does not fit its coordinate. -/
inductive Misfit where
  /-- A segment of a `mappings` text, as it is written there. -/
  | segment (text : String)
  /-- A mapping of a section, in the coordinates of the section. -/
  | mapping (m : Mapping)
  /-- A generated position of a section, in the coordinates of the section. -/
  | position (p : Position)
deriving DecidableEq

/-- The text of what did not fit. -/
def Misfit.text : Misfit → String
  | .segment text => text
  | .mapping m => m.text
  | .position p => p.text

/-- The causes of failure. -/
inductive Error where
  /-- The text is no JSON, or its fields have the wrong types. -/
  | malformedRecord
  | unsupportedVersion (found : Option UInt32)
  | invalidDigit (digit : Char)
  | unterminatedQuantity
  | quantityOverflow
  /-- A segment with a number of fields other than one, four or five. -/
  | malformedSegment (text : String)
  | outOfRange (value : Misfit)
  | unknownSource (index : Nat)
  | unknownName (index : Nat)
  | contentsMismatch (sources contents : Nat)
  | invalidMapping (fault : Mapping.Fault) (mapping : Mapping)
  | unorderedSections
  | sectionByUrl (index : Nat)
  | sectionWithoutMap (index : Nat)
  | sectionOffsetOutOfRange (index : Nat)
  | inSection (index : Nat) (cause : Error)
  | sourceNotFound (source : String)
  | missingFile
deriving DecidableEq

/-- The wording of a fault. -/
def Mapping.Fault.message : Mapping.Fault → String
  | .generatedLineZero => "generated line must be at least 1"
  | .originalLineZero => "original line must be at least 1"
  | .nameWithoutSource => "a name requires a source"

namespace Error

/-- The wording of an error. -/
def message : Error → String
  | malformedRecord => "source map syntax error"
  | unsupportedVersion none => "unsupported source map version: None"
  | unsupportedVersion (some v) => s!"unsupported source map version: Some({v})"
  | invalidDigit c => s!"invalid base64 character {Text.quoted c} in VLQ"
  | unterminatedQuantity => "VLQ ends with a continuation digit"
  | quantityOverflow => "VLQ value overflows 64 bits"
  | malformedSegment text => s!"a mapping is malformed: \"{text}\""
  | outOfRange value => s!"a mapping has a value out of range: \"{value.text}\""
  | unknownSource i => s!"a mapping references unknown source #{i}"
  | unknownName i => s!"a mapping references unknown name #{i}"
  | contentsMismatch m n => s!"source map has {m} sources but {n} sourcesContent entries"
  | invalidMapping fault m => s!"invalid mapping: {fault.message}: {m.text}"
  | unorderedSections => "section offsets must be ordered and non-overlapping"
  | sectionByUrl i => s!"section #{i} references a map by url, which is not supported"
  | sectionWithoutMap i => s!"section #{i} has no map"
  | sectionOffsetOutOfRange i => s!"section #{i} has an offset out of range"
  | inSection i cause => s!"section #{i} is invalid: {cause.message}"
  | sourceNotFound source => s!"\"{source}\" is not in the source map"
  | missingFile =>
    "applying a source map requires either an explicit source file, " ++
    "or the source map's \"file\" property"

end Error

end SourceMap

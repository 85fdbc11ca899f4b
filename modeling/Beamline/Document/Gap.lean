import Beamline.Element.Kind

/-!
# Why a raw value describes no document

* `Document.Gap` : what a raw value lacks to be a document, with its wording.
-/

namespace Beamline.Document

/-- What a raw value lacks to be a document. -/
inductive Gap where
  | notObject
  | noVersion
  | tableNotObject (key : String)
  | unknownKind (element : String)
  | noParameters (element : String)
  | badParameter (element : String) (flaw : Parameter.Flaw)
  | notSequence (lattice : String)
  | badItem (lattice item : String)
  deriving DecidableEq, Repr

def Gap.message : Gap → String
  | notObject => "document is not an object"
  | noVersion => "missing or unreadable version"
  | tableNotObject key => s!"'{key}' is not an object"
  | unknownKind element => s!"element '{element}' has no known type"
  | noParameters element => s!"element '{element}' has no parameter object"
  | badParameter element flaw => "element '" ++ element ++ "': " ++ flaw.message
  | notSequence lattice => s!"lattice '{lattice}' is not an array"
  | badItem lattice item => "lattice '" ++ lattice ++ "': unexpected lattice item " ++ item

end Beamline.Document

import Beamline.Element.Kind
import Beamline.Json.Pointer
import Beamline.Policy
import Beamline.Version
import Beamline.Violation

/-!
# Findings

A finding is a complaint about a place in a raw document.

* `Complaint` : everything a document can be blamed for, with its rule and its wording;
* `Finding.report` : the violation that a finding is. Complaints about unknown keys are warnings to
  a lenient reader, all others are errors to everyone.
-/

namespace Beamline

/-- What a document can be blamed for. -/
inductive Complaint where
  | notObject
  | missingKey (key : String)
  | keyNotObject (key : String)
  | keyNotText (key : String)
  | badVersion (raw : String)
  | otherVersion (v : Version)
  | unknownKey (key : String)
  | namelessElement
  | notPair (name : String)
  | unknownKind (tag : String)
  | kindNotText
  | parametersNotObject
  | missingParameter (p : Parameter) (k : Kind)
  | unknownParameter (key : String) (k : Kind)
  | wrongForm (key : String) (form : Form)
  | negative (key : String)
  | namelessLattice
  | notSequence (name : String)
  | namedNesting (name : String)
  | inlineNesting
  | emptyGroup
  | notItem
  | nameClash (name : String)
  | rootIsElement (name : String)
  | undefinedName (name lattice : String)
  | undefinedRoot (name : String)
  | cyclic (names : List String)
  deriving DecidableEq, Repr

namespace Complaint

/-- Whether the complaint is about a key that is merely unknown. -/
def isUnknown : Complaint → Bool
  | unknownKey _ | unknownParameter _ _ => true
  | _ => false

def rule : Complaint → Rule
  | notObject | missingKey _ | keyNotObject _ | keyNotText _ | badVersion _ | otherVersion _
  | unknownKey _ => .shape
  | namelessElement | notPair _ | unknownKind _ | kindNotText | parametersNotObject
  | missingParameter _ _ | unknownParameter _ _ | wrongForm _ _ | negative _ => .element
  | namelessLattice | notSequence _ | namedNesting _ | inlineNesting | emptyGroup | notItem
  | nameClash _ | rootIsElement _ => .lattice
  | undefinedName name _ | undefinedRoot name => .reference name
  | cyclic names => .cycle names

def message : Complaint → String
  | notObject => "document must be a JSON object"
  | missingKey key => s!"missing required key '{key}'"
  | keyNotObject key => s!"'{key}' must be an object"
  | keyNotText key => s!"'{key}' must be a string"
  | badVersion raw => s!"invalid version '{raw}', expected MAJOR.MINOR"
  | otherVersion v =>
    "unsupported format version " ++ v.text ++ ", this library reads " ++
      toString Version.current.major ++ ".x; migrate the document first"
  | unknownKey key => s!"unknown top-level key '{key}'"
  | namelessElement => "element name must not be empty"
  | notPair name => s!"element '{name}' must be a [type, params] pair"
  | unknownKind tag =>
    "unknown element type '" ++ tag ++ "' (expected one of: " ++
      ", ".intercalate (Kind.all.map Kind.tag) ++ ")"
  | kindNotText => "element type must be a string"
  | parametersNotObject => "element parameters must be an object"
  | missingParameter p k => "missing required parameter '" ++ p.name ++ "' for " ++ k.tag
  | unknownParameter key k => "unknown parameter '" ++ key ++ "' for " ++ k.tag
  | wrongForm key form => "parameter '" ++ key ++ "' must be " ++ form.describe
  | negative key => s!"parameter '{key}' must not be negative"
  | namelessLattice => "lattice name must not be empty"
  | notSequence name => s!"lattice '{name}' must be an array of names"
  | namedNesting name => s!"named sub-lattice '{name}' is not allowed, nesting is inline-only"
  | inlineNesting => "inline sub-lattices are not allowed, nesting is named-only"
  | emptyGroup => "inline sub-lattice must not be empty"
  | notItem => "lattice item must be a name or an array"
  | nameClash name => s!"name '{name}' is defined both as an element and as a lattice"
  | rootIsElement name => s!"root must name a lattice, '{name}' is an element"
  | undefinedName name lattice => s!"undefined name '{name}' referenced in lattice '{lattice}'"
  | undefinedRoot name => s!"undefined root lattice '{name}'"
  | cyclic names => "lattice nesting is cyclic: " ++ " -> ".intercalate names

end Complaint

/-- A complaint about a place. -/
structure Finding where
  place : Pointer
  complaint : Complaint
  deriving DecidableEq, Repr

namespace Finding

def severity (lenient : Bool) (f : Finding) : Severity :=
  if lenient && f.complaint.isUnknown then .warning else .error

/-- The violation that a finding is to a lenient or a strict reader. -/
def report (lenient : Bool) (f : Finding) : Violation :=
  ⟨f.severity lenient, f.complaint.rule, f.place.text, f.complaint.message⟩

end Finding

end Beamline

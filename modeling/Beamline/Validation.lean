import Beamline.Note
import Beamline.Validation.Shape
import Beamline.Validation.Elements
import Beamline.Validation.Lattices
import Beamline.Validation.Cycles

/-!
# Validation of raw documents

* `Validation.findings` : everything that is wrong with a document under a nesting policy, in the
  order of the phases: shape, unknown keys, elements, lattices, names, cycles;
* `validate` : the same as violations. Unknown keys are warnings to a lenient reader and in
  documents of a later minor version;
* `Report` : what validation says; a document is accepted if no violation is an error.
-/

namespace Beamline

namespace Validation

/-- Everything that is wrong with a document that is an object. -/
def objectFindings (nesting : Nesting) (doc : List (String × Json)) : List Finding :=
  let elements := ((doc.lookup "elements").bind Json.members?).getD []
  let lattices := ((doc.lookup "lattices").bind Json.members?).getD []
  let isElement := Table.has elements
  let isLattice := Table.has lattices
  shapeFindings doc ++ unknownKeyFindings doc ++
    elements.flatMap (fun (name, entry) => elementFindings name entry) ++
    lattices.flatMap (fun (name, entry) => latticeFindings nesting isLattice name entry) ++
    lattices.flatMap (fun (name, entry) => nameFindings isElement isLattice name entry) ++
    rootFindings isElement isLattice (doc.lookup "root") ++
    cycleFindings lattices

/-- Everything that is wrong with a document. -/
def findings (nesting : Nesting) (v : Json) : List Finding :=
  match v.members? with
  | none => [⟨[], .notObject⟩]
  | some doc => objectFindings nesting doc

/-- Whether unknown keys are no errors: the reader is lenient, or the document is of a later minor
version. -/
def isLenient (mode : Mode) (v : Json) : Bool :=
  mode == .lenient || ((v.members?.bind readableVersion?).any Version.forward)

/-- What validation says of a document. -/
structure Report where
  errors : List Violation
  warnings : List Violation

namespace Report

/-- Errors and warnings apart, each in the order found. -/
def ofViolations (vs : List Violation) : Report :=
  ⟨vs.filter Violation.isError, vs.filter (!·.isError)⟩

def accepted (r : Report) : Bool :=
  r.errors.isEmpty

/-- The warnings as notes. -/
def notes (r : Report) : List Note :=
  r.warnings.map fun v => ⟨v.reason, [("path", v.path)]⟩

end Report

end Validation

open Validation

/-- Holds a raw document against the rules of the format. -/
def validate (policy : Policy) (v : Json) : Report :=
  .ofViolations ((findings policy.nesting v).map (Finding.report (isLenient policy.mode v)))

end Beamline

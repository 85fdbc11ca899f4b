import Beamline.Document.Decode
import Beamline.Document.Encode

/-!
# Building documents

A builder collects the parts of a document. A name that comes a second time is not taken and is
held against the document when it is built.

* `Document.check` : validation of a document through its raw form;
* `Builder.title`, `info`, `root`, `element`, `lattice` : the parts;
* `Builder.build` : the document, held against the same rules as one that is read.
-/

namespace Beamline

namespace Document

/-- The warnings about a document, unless its raw form has errors. -/
def check (policy : Policy) (d : Document) : Except Error (List Violation) :=
  let report := validate policy d.toJson
  if report.accepted then .ok report.warnings else .error (.ofViolations report.errors)

end Document

/-- A document in the making, and the names that came a second time. -/
structure Builder where
  document : Document
  repeated : List Violation

namespace Builder

def empty : Builder where
  document := {
    version := .current
    title := none
    info := none
    root := none
    elements := []
    lattices := []
    extras := [] }
  repeated := []

def title (b : Builder) (title : String) : Builder :=
  { b with document := { b.document with title := some title } }

def info (b : Builder) (info : String) : Builder :=
  { b with document := { b.document with info := some info } }

def root (b : Builder) (root : String) : Builder :=
  { b with document := { b.document with root := some root } }

/-- The complaint that the entry `name` of the table `key` came a second time; `what` is what it
defines. -/
def repetition (key what name : String) : Violation where
  severity := .error
  rule := .shape
  path := Pointer.text [key, name]
  reason := s!"{what} '{name}' is defined more than once"

def element (b : Builder) (e : Element) : Builder :=
  if (b.document.element? e.name).isSome then
    { b with repeated := b.repeated ++ [repetition "elements" "element" e.name] }
  else { b with document := { b.document with elements := b.document.elements ++ [e] } }

def lattice (b : Builder) (l : Lattice) : Builder :=
  if (b.document.lattice? l.name).isSome then
    { b with repeated := b.repeated ++ [repetition "lattices" "lattice" l.name] }
  else { b with document := { b.document with lattices := b.document.lattices ++ [l] } }

/-- The document, if no name came twice and it keeps the rules. -/
def build (b : Builder) : Except Error Document := do
  if !b.repeated.isEmpty then throw (.ofViolations b.repeated)
  let _ ← b.document.check .standard
  return b.document

end Builder

end Beamline

import Beamline.Element.Basic
import Beamline.Lattice.Basic
import Beamline.Version

/-!
# Documents

A document holds the elements and the lattices of a machine, each in the order of declaration, and
says which lattice is the machine as a whole.

* `Document.element?`, `Document.lattice?` : a definition by its name;
* `Document.agrees` : equality up to the order of declaration and the sign of zero.
-/

namespace Beamline

structure Document where
  version : Version
  title : Option String
  info : Option String
  /-- The lattice that is the machine as a whole. -/
  root : Option String
  elements : List Element
  lattices : List Lattice
  /-- Further members of the document, unknown here and kept as they are. -/
  extras : List (String × Json)

namespace Document

def element? (d : Document) (name : String) : Option Element :=
  d.elements.find? (·.name == name)

def lattice? (d : Document) (name : String) : Option Lattice :=
  d.lattices.find? (·.name == name)

/-- The lattice that is the machine as a whole. -/
def beamline? (d : Document) : Option Lattice :=
  d.root.bind d.lattice?

/-- Whether two documents have the same head, and the same elements, lattices and further members
in any order. -/
def agrees (a b : Document) : Bool :=
  a.version == b.version && a.title == b.title && a.info == b.info && a.root == b.root &&
    a.elements.length == b.elements.length &&
    a.elements.all (fun e => (b.element? e.name).any e.agrees) &&
    a.lattices.length == b.lattices.length &&
    a.lattices.all (fun l => (b.lattice? l.name).any l.same) &&
    Json.agrees (.obj a.extras) (.obj b.extras)

end Document

end Beamline

import Beamline.Document.Walk

/-!
# Expansion of lattices

* `Document.resolve` : an element by its name, or the error that there is none;
* `Document.expand` : the elements that a lattice stands for, groups and lattices in it replaced by
  what they stand for;
* `Document.length` : their lengths added up from the left.
-/

namespace Beamline

namespace Document

/-- The element `name`. -/
def resolve (d : Document) (name : String) : Except Error Element :=
  match d.element? name with
  | some e => .ok e
  | none => .error (.notFound .element name)

/-- The elements that the lattice `name` stands for. -/
def expand (d : Document) (name : String) : Except Error (List Element) :=
  match d.lattice? name with
  | none => .error (.notFound .lattice name)
  | some l => (Walk.start l).run d

/-- The lengths of elements added up from the left. No elements have the length `-0`. -/
def totalLength (elements : List Element) : Float :=
  elements.foldl (fun sum e => sum + e.length) (-0.0)

/-- The length of the lattice `name`. -/
def length (d : Document) (name : String) : Except Error Float :=
  (d.expand name).map totalLength

end Document

end Beamline

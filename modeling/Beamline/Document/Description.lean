import Beamline.Document.Expansion

/-!
# Descriptions

* `Document.describe` : a sentence about an element or a lattice, by its name.
-/

namespace Beamline

/-- A kind with its article. -/
def Kind.phrase (k : Kind) : String :=
  (if k = .octupole then "an " else "a ") ++ k.tag

/-- A length in words. -/
def metres (x : Float) : String :=
  Deck.plain x ++ " meters long"

/-- The kind of an element, its length if it has one, and its remark. -/
def Element.describe (e : Element) : String :=
  "The element " ++ e.name ++ " is " ++ e.kind.phrase ++
    (if 0 < e.length then " and is " ++ metres e.length else "") ++ "." ++
    (e.info.map (" " ++ ·)).getD ""

/-- The number of elements that a lattice stands for, and their length. -/
def Lattice.describe (l : Lattice) (elements : List Element) : String :=
  "The lattice " ++ l.name ++ " has " ++ toString elements.length ++ " elements and is " ++
    metres (Document.totalLength elements) ++ "."

/-- A sentence about the element or else the lattice `name`. -/
def Document.describe (d : Document) (name : String) : Except Error String :=
  match d.element? name, d.lattice? name with
  | some e, _ => .ok e.describe
  | none, some l => (d.expand name).map l.describe
  | none, none => .error (.notFound .elementOrLattice name)

end Beamline

import Beamline.Document.Basic
import Beamline.Json.Writer

/-!
# Encoding documents

* `Element.toJson`, `Lattice.toJson` : the entries of elements and lattices;
* `Document.members`, `Document.toJson` : the raw form of a document, its members in a fixed order;
* `Document.encode` : the text of a document.
-/

namespace Beamline

namespace Item

mutual

/-- The raw form of an item. -/
def toJson : Item → Json
  | .name s => .str s
  | .group items => .arr (listToJson items)

/-- The raw form of a list of items. -/
def listToJson : List Item → List Json
  | [] => []
  | i :: rest => toJson i :: listToJson rest

end

end Item

/-- The parameters of an element in the order of the catalogue. -/
def Element.parameters (e : Element) : List (String × Json) :=
  (e.body.fields.map fun f => (f.1.name, f.2.toJson)) ++
    e.info.toList.map fun s => (Parameter.info.name, .str s)

/-- The entry of an element: its kind and its parameters. -/
def Element.toJson (e : Element) : Json :=
  .arr [.str e.kind.tag, .obj e.parameters]

/-- The entry of a lattice. -/
def Lattice.toJson (l : Lattice) : Json :=
  .arr (Item.listToJson l.items)

namespace Document

/-- The element entries of a document. -/
def elementTable (d : Document) : List (String × Json) :=
  d.elements.map fun e => (e.name, e.toJson)

/-- The lattice entries of a document. -/
def latticeTable (d : Document) : List (String × Json) :=
  d.lattices.map fun l => (l.name, l.toJson)

/-- The members of a document in their order. -/
def members (d : Document) : List (String × Json) :=
  let text (key : String) (s : Option String) := s.toList.map fun s => (key, Json.str s)
  ("version", .str d.version.text) :: text "title" d.title ++ text "info" d.info ++
    text "root" d.root ++
    [("elements", .obj d.elementTable), ("lattices", .obj d.latticeTable)] ++
    d.extras

/-- The raw form of a document. -/
def toJson (d : Document) : Json :=
  .obj d.members

/-- The text of a document. -/
def encode (d : Document) : String :=
  d.toJson.layoutText

end Document

end Beamline

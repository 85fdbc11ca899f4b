import Beamline.Document.Order
import Beamline.Error
import Beamline.Json.Writer

/-!
# Writing decks

A deck has a title, a definition for each element, a line for each lattice behind the lines that it
names, and the choice of the root. Groups have no names in a deck, so their items stand in the line
around them.

* `Document.writeDeck` : the deck of a document in a dialect.
-/

namespace Beamline

namespace Deck

/-- The line with the title of a deck. -/
def titleLine (d : Dialect) (title : String) : String :=
  match d with
  | .elegant => "! TITLE: " ++ title
  | .madx => "TITLE, " ++ String.ofList (Json.quote title) ++ ";"

/-- Floats between braces. -/
def braced (xs : List Float) : String :=
  "\x7b" ++ ", ".intercalate (xs.map plain) ++ "\x7d"

/-- A parameter with its value. -/
def assignment (key : String) (q : Quantity) : String :=
  match q with
  | .number x => key ++ "=" ++ plain x
  | .numbers xs => key ++ "=" ++ braced xs

/-- The parameters of an element through the table of the dialect. -/
def assignments (d : Dialect) (e : Element) : Except Obstacle (List String) :=
  e.body.fields.mapM fun (p, q) =>
    match d.attribute? p with
    | some key => .ok (assignment key q)
    | none => .error (.noAttribute e.name p.name)

/-- The strengths that are not zero, with their orders. -/
def nonzero (knl : List Float) : List (Nat × Float) :=
  (knl.zipIdx.filter fun k => k.1 != 0).map fun (k, order) => (order, k)

/-- The one order at which a multipole has a strength, and the strength. A multipole without any
strength counts as order zero. -/
def singleOrder? (knl : List Float) (ksl : Option (List Float)) : Option (Nat × Float) :=
  if ksl.any (·.any (· != 0)) then none
  else
    match nonzero knl with
    | [] => some (0, 0)
    | [k] => some k
    | _ => none

/-- The parameters of an element. elegant writes a multipole as one strength and its order. -/
def attributes (d : Dialect) (e : Element) : Except Obstacle (List String) :=
  match d, e.body with
  | .elegant, .multipole knl ksl =>
    match singleOrder? knl ksl with
    | some (order, k) => .ok ["KNL=" ++ plain k, "ORDER=" ++ toString order]
    | none => .error (.mixedMultipole e.name)
  | _, _ => assignments d e

/-- The definition of an element. -/
def elementLine (d : Dialect) (e : Element) : Except Obstacle String := do
  let attributes ← attributes d e
  return e.name ++ ": " ++ ", ".intercalate (d.keyword e.kind :: attributes) ++ d.terminator

/-- The definition of a line. -/
def latticeLine (d : Dialect) (l : Lattice) : String :=
  l.name ++ ": LINE=(" ++ ", ".intercalate l.references ++ ")" ++ d.terminator

/-- The statement that makes a line the root. -/
def useLine (d : Dialect) (root : String) : String :=
  "USE, " ++ root ++ d.terminator

/-- The lines of the deck of a document. -/
def deckLines (d : Dialect) (doc : Document) : Except Obstacle (List String) := do
  let root ←
    match doc.beamline? with
    | some l => pure l.name
    | none => throw .noRoot
  let elements ← doc.elements.mapM (elementLine d)
  return titleLine d (doc.title.getD root) :: elements ++
    doc.inDependencyOrder.map (latticeLine d) ++ [useLine d root]

end Deck

/-- The deck of a document in a dialect. -/
def Document.writeDeck (d : Dialect) (doc : Document) : Except Error String :=
  match Deck.deckLines d doc with
  | .ok lines => .ok (lines.foldr (fun l rest => l ++ "\n" ++ rest) "")
  | .error obstacle => .error (.exporting d obstacle)

end Beamline

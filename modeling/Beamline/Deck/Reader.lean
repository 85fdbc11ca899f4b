import Beamline.Deck.Session
import Beamline.Document.Builder

/-!
# Reading decks

* `Session.document` : the document that a session describes; required parameters that were not
  given are zero or empty, and the root is the line in use or the one defined last;
* `Document.readDeck` : the document that a deck describes, with the notes left on the way.
-/

namespace Beamline

namespace Deck

/-- The value of a required parameter that was not given. -/
def missingValue (form : Form) : Quantity :=
  match form with
  | .numbers => .numbers []
  | _ => .number 0

/-- The value of a parameter of a defined element. -/
def Definition.value (e : Definition) (p : Parameter) : Option Quantity :=
  match e.fields.lookup p with
  | some q => some q
  | none => if e.kind.required.contains p then some (missingValue p.form) else none

/-- The element that was defined as `name`. -/
def Definition.element (e : Definition) (name : String) : Except Parameter.Flaw Element := do
  let body ← Body.ofSource e.kind (.ofQuantities e.value)
  return { name, info := none, body }

/-- The elements that were defined; a definition that is none is told with its line. -/
def Session.elementList (s : Session) : Except (Nat × Flaw) (List Element) :=
  s.elements.mapM fun (name, e) =>
    (e.element name).mapError fun flaw => (e.line, .badParameter name flaw)

/-- The parts of the document that a session describes. -/
def Session.builder (s : Session) (elements : List Element) : Builder :=
  let b := Builder.empty
  let b := (s.title.map b.title).getD b
  let b := elements.foldl Builder.element b
  let b := s.lines.foldl (fun b l => b.lattice ⟨l.1, l.2.map .name⟩) b
  ((s.root <|> s.lastLine).map b.root).getD b

/-- The document that a session describes. -/
def Session.document (d : Dialect) (s : Session) : Except Error Document :=
  match s.elementList with
  | .error (line, flaw) => .error (.importing d line flaw)
  | .ok elements => (s.builder elements).build

end Deck

open Deck

/-- The document that a deck describes, and the notes left on the way. -/
def Document.readDeck (d : Dialect) (text : String) : Except Error Document × List Note :=
  let cut := Deck.cut d text.toList
  match Session.clauses d { title := cut.title } cut.clauses with
  | .error f => (.error (.importing d f.line f.flaw), f.notes)
  | .ok s => (s.document d, s.notes)

end Beamline

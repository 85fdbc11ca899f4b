import Beamline.Deck.Clause
import Beamline.Deck.Grammar
import Beamline.Deck.Reversal
import Beamline.Deck.Value
import Beamline.Element.Basic
import Beamline.Note

/-!
# Sessions

A session is what has been read of a deck: the variables, the elements and lines defined so far,
and what the commands said.

* `Session.assign`, `defineElement`, `defineLine`, `command` : what each statement does;
* `Session.clause` : the effect of one clause;
* `Session.clauses` : the effect of all of them.

An element takes the parameters of its keyword's kind, or all that another element has. A kind that
is not known is read as a drift of the same length, and an attribute that is not known is left out;
both leave a note.
-/

namespace Beamline.Deck

/-- An element as far as it is defined, with the line of its definition. -/
structure Definition where
  line : Nat
  kind : Kind
  fields : List (Parameter × Quantity)

/-- What has been read of a deck. -/
structure Session where
  vars : Variables := constants
  elements : List (String × Definition) := []
  lines : Lines := []
  /-- The line that was defined last. -/
  lastLine : Option String := none
  root : Option String := none
  title : Option String := none
  notes : List Note := []

/-- A flaw with the line of its clause and the notes left before it. -/
structure Failure where
  line : Nat
  flaw : Flaw
  notes : List Note

namespace Session

/-- The failure of a clause that starts on `line`. -/
def fail (s : Session) (line : Nat) (flaw : Flaw) : Failure :=
  ⟨line, flaw, s.notes⟩

/-- The result of a computation in a clause that starts on `line`. -/
def attempt {α : Type} (s : Session) (line : Nat) (result : Except Flaw α) : Except Failure α :=
  result.mapError (s.fail line)

/-- Leaves a note about an element. -/
def note (s : Session) (message element : String) (key value : String) : Session :=
  { s with notes := s.notes ++ [⟨message, [("element", element), (key, value)]⟩] }

/-! ## Values -/

/-- The number that an attribute has, and the variables after it. -/
def number (d : Dialect) (vars : Variables) : Literal → Except Flaw (Float × Variables)
  | .expr e => do
    let x ← e.eval vars
    return (x, vars)
  | .text t =>
    if d.quotesExpressions then Postfix.run t.toList vars else .error (.textForNumber t)
  | .array _ => .error .arrayForNumber

/-- A number that is finite. -/
def finite (x : Float) : Except Flaw Float :=
  if x.isFinite then .ok x else .error (.notFinite x)

/-- The number or the list of numbers that an attribute has; a single number makes a list too. -/
def quantity (d : Dialect) (vars : Variables) (form : Form) (value : Literal) :
    Except Flaw (Quantity × Variables) :=
  match form, value with
  | .numbers, .array es => do
    let xs ← es.mapM (Expr.eval vars)
    let xs ← xs.mapM finite
    return (.numbers xs, vars)
  | .numbers, value => do
    let (x, vars) ← number d vars value
    return (.numbers [← finite x], vars)
  | _, value => do
    let (x, vars) ← number d vars value
    return (.number (← finite x), vars)

open Float.Model in
/-- The natural number that a float is, if it is one. -/
def natural? (x : Float) : Option Nat :=
  match x.toModel.unpack with
  | .zero _ => some 0
  | .finite .positive mantissa exponent _ =>
    if 0 ≤ exponent then some (mantissa * Nat.pow 2 exponent.toNat)
    else if mantissa % Nat.pow 2 (-exponent).toNat = 0 then
      some (mantissa / Nat.pow 2 (-exponent).toNat)
    else none
  | _ => none

/-- The order that an attribute gives. -/
def order (d : Dialect) (vars : Variables) (value : Literal) : Except Flaw (Nat × Variables) := do
  let (x, vars) ← number d vars value
  match natural? x with
  | some n => return (n, vars)
  | none => throw (.orderNotWhole x)

/-! ## Elements -/

/-- The fields of a multipole whose single strengths belong to the given order. -/
def shiftToOrder (order : Nat) (fields : List (Parameter × Quantity)) :
    List (Parameter × Quantity) :=
  fields.map fun (p, q) =>
    match q with
    | .numbers [x] => (p, .numbers (List.replicate order 0 ++ [x]))
    | q => (p, q)

/-- An element in the course of its definition. -/
structure Draft where
  session : Session
  definition : Definition
  order : Option Nat := none

/-- Takes in one attribute of the element `name`. -/
def Draft.attribute (d : Dialect) (name : String) (draft : Draft) (key : String)
    (value : Literal) : Except Failure Draft :=
  let s := draft.session
  let e := draft.definition
  if e.kind = .multipole ∧ key = "ORDER" then do
    let (n, vars) ← s.attempt e.line (Session.order d s.vars value)
    return { draft with session := { s with vars }, order := some n }
  else
    match d.parameter? e.kind key with
    | none =>
      return { draft with session := s.note "unknown attribute skipped" name "attribute" key }
    | some p => do
      let (q, vars) ← s.attempt e.line (quantity d s.vars p.form value)
      return { draft with
        session := { s with vars }
        definition := { e with fields := Table.put p q e.fields } }

/-- Takes in the attributes of the element `name`. -/
def Draft.attributes (d : Dialect) (name : String) (draft : Draft) :
    List (String × Literal) → Except Failure Draft
  | [] => .ok draft
  | (key, value) :: rest => do
    let draft ← draft.attribute d name key value
    draft.attributes d name rest

/-- The element as it was defined, its order taken into account. -/
def Draft.finish (draft : Draft) : Definition :=
  match draft.order with
  | none => draft.definition
  | some n => { draft.definition with fields := shiftToOrder n draft.definition.fields }

/-- The length that the attributes of an unknown kind give, and the variables after them. -/
def lengthOf (d : Dialect) (length : Float) (vars : Variables) :
    List (String × Literal) → Except Flaw (Float × Variables)
  | [] => .ok (length, vars)
  | (key, value) :: rest =>
    if key = "L" then do
      let (length, vars) ← number d vars value
      lengthOf d length vars rest
    else lengthOf d length vars rest

/-- Defines the element `name` of an unknown kind, a drift. -/
def defineUnknown (d : Dialect) (s : Session) (line : Nat) (name keyword : String)
    (attributes : List (String × Literal)) : Except Failure Session := do
  let s := s.note "unknown element type, imported as a drift" name "keyword" keyword
  let (length, vars) ← s.attempt line (lengthOf d 0 s.vars attributes)
  let length ← s.attempt line (finite length)
  let e : Definition := ⟨line, .drift, [(.length, .number length)]⟩
  return { s with vars, elements := Table.put name e s.elements }

/-- Defines the element `name`. The keyword is a kind, or another element whose kind and parameters
the new one starts from. -/
def defineElement (d : Dialect) (s : Session) (line : Nat) (name keyword : String)
    (attributes : List (String × Literal)) : Except Failure Session :=
  if keyword = "SEQUENCE" then .error (s.fail line .sequence)
  else
    let start : Option Definition :=
      match d.kind? keyword with
      | some k => some ⟨line, k, []⟩
      | none => (s.elements.lookup keyword).map fun parent => { parent with line }
    match start with
    | none => defineUnknown d s line name keyword attributes
    | some e => do
      let draft ← Draft.attributes d name { session := s, definition := e } attributes
      let s := draft.session
      return { s with elements := Table.put name draft.finish s.elements }

/-! ## Statements -/

/-- Gives a variable a value. -/
def assign (s : Session) (name : String) (x : Float) : Session :=
  { s with vars := (name, x) :: s.vars }

/-- Defines the line `name`. -/
def defineLine (s : Session) (line : Nat) (name : String) (items : List LineItem) :
    Except Failure Session := do
  let (names, lines) ← s.attempt line (arrange s.lines items)
  return { s with lines := Table.put name names lines, lastLine := some name }

/-- The keys of an argument that may name the root. -/
def rootKeys : List (Option String) :=
  [none, some "SEQUENCE", some "PERIOD", some "LINE"]

/-- Carries out a command; `none` ends the deck. Commands that are not known do nothing. -/
def command (s : Session) (keyword : String) (arguments : List Argument) : Option Session :=
  match keyword with
  | "USE" =>
    let chosen := arguments.find? fun a => rootKeys.contains a.key
    some { s with root := chosen.map fun a => String.ofList (Text.upper a.word.toList) }
  | "TITLE" => some { s with title := arguments.head?.map (·.word) }
  | "RETURN" | "STOP" | "EXIT" => none
  | _ => some s

/-- Carries out a statement of a clause that starts on `line`; `none` ends the deck. -/
def statement (d : Dialect) (s : Session) (line : Nat) :
    Statement → Except Failure (Option Session)
  | .assign name value => do
    let x ← s.attempt line (value.eval s.vars)
    return some (s.assign name x)
  | .element name keyword attributes => do
    let s ← defineElement d s line name keyword attributes
    return some s
  | .line name items => do
    let s ← s.defineLine line name items
    return some s
  | .command keyword arguments => return s.command keyword arguments

/-- The postfix expression of a clause that only computes. -/
def calculation? (d : Dialect) (c : Clause) : Option (List Char) :=
  match d.quotesExpressions, c.text with
  | true, '%' :: cs => some cs
  | _, _ => none

/-- Carries out a clause; `none` ends the deck. -/
def clause (d : Dialect) (s : Session) (c : Clause) : Except Failure (Option Session) :=
  if maxBracketDepth < bracketDepth c.text then
    .error (s.fail c.line (.tooDeep maxBracketDepth))
  else
    match calculation? d c with
    | some cs => do
      let (_, vars) ← s.attempt c.line (Postfix.run cs s.vars)
      return some { s with vars }
    | none => do
      let st ← s.attempt c.line (parse c.text)
      s.statement d c.line st

/-- Carries out clauses up to the end of the deck. -/
def clauses (d : Dialect) (s : Session) : List Clause → Except Failure Session
  | [] => .ok s
  | c :: rest => do
    match ← s.clause d c with
    | none => return s
    | some s => s.clauses d rest

end Session

end Beamline.Deck

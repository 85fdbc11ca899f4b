import Beamline.Document.Basic
import Beamline.Error
import Beamline.Json.Reader
import Beamline.Json.Writer
import Beamline.Validation

/-!
# Decoding documents

* `Document.ofJson` : the document that a raw value describes, or what it lacks; a value that
  validation accepts lacks nothing;
* `Document.decode` : the document that a text spells under a policy;
* `Document.load` : the document in a file.
-/

namespace Beamline

namespace Item

mutual

/-- The item that a raw value describes; the value at fault, if it describes none. -/
def ofJson : Json → Except Json Item
  | .str s => .ok (.name s)
  | .arr items => (listOfJson items).map .group
  | v => .error v

/-- The items that raw values describe. -/
def listOfJson : List Json → Except Json (List Item)
  | [] => .ok []
  | v :: rest => do
    let i ← ofJson v
    let is ← listOfJson rest
    return i :: is

end

/-- The items that raw values describe, if they do. -/
def listOfJson? (vs : List Json) : Option (List Item) :=
  (listOfJson vs).toOption

end Item

/-- The parameters in an object. -/
def Body.Source.ofMembers (params : List (String × Json)) : Body.Source where
  number? p :=
    match params.lookup p.name with
    | none => .ok none
    | some v =>
      match v.float? with
      | some x => .ok (some x)
      | none => .error (.notNumber p)
  numbers? p :=
    match params.lookup p.name with
    | none => .ok none
    | some v =>
      match v.items? with
      | none => .error (.notArray p)
      | some items =>
        match items.mapM Json.float? with
        | some xs => .ok (some xs)
        | none => .error (.notNumbers p)

/-- The kind that the entry of an element names. -/
def Element.kindOfJson? (entry : Json) : Option Kind :=
  ((entry.at? 0).bind Json.text?).bind Kind.ofTag?

/-- The element that the entry of `name` describes. Unknown parameters are left out. -/
def Element.ofJson (name : String) (entry : Json) : Except Document.Gap Element :=
  match kindOfJson? entry, (entry.at? 1).bind Json.members? with
  | none, _ => .error (.unknownKind name)
  | _, none => .error (.noParameters name)
  | some kind, some params => do
    let body ← (Body.ofSource kind (.ofMembers params)).mapError (.badParameter name)
    return { name, info := (params.lookup Parameter.info.name).bind Json.text?, body }

/-- The lattice that the entry of `name` describes. -/
def Lattice.ofJson (name : String) (entry : Json) : Except Document.Gap Lattice :=
  match entry.items? with
  | none => .error (.notSequence name)
  | some items => do
    let items ← (Item.listOfJson items).mapError fun v => .badItem name (Json.compactText v)
    return { name, items }

namespace Document

/-- What the entries of the table `key` describe; a document without the table has no entries. -/
def tableOf {α : Type} (doc : List (String × Json)) (key : String)
    (entryOf : String → Json → Except Gap α) : Except Gap (List α) :=
  match doc.lookup key with
  | none => .ok []
  | some v =>
    match v.members? with
    | none => .error (.tableNotObject key)
    | some entries => entries.mapM fun (name, entry) => entryOf name entry

/-- The document that a raw value describes. -/
def ofJson (v : Json) : Except Gap Document :=
  match v.members? with
  | none => .error .notObject
  | some doc => do
    let text (key : String) := (doc.lookup key).bind Json.text?
    let elements ← tableOf doc "elements" Element.ofJson
    let lattices ← tableOf doc "lattices" Lattice.ofJson
    match (text "version").bind Version.parse? with
    | none => throw .noVersion
    | some version =>
      return {
        version, elements, lattices
        title := text "title"
        info := text "info"
        root := text "root"
        extras := doc.filter fun m => !Validation.knownKeys.contains m.1 }

/-- The document that a raw value describes, if validation accepts it. -/
def ofRaw (policy : Policy) (v : Json) : Except Error Document :=
  let report := validate policy v
  if report.accepted then (ofJson v).mapError .internal else .error (.ofViolations report.errors)

/-- The document that a text spells. -/
def decode (policy : Policy) (text : String) : Except Error Document :=
  match Json.parse text with
  | .error fault => .error (.parse fault)
  | .ok v => ofRaw policy v

/-- The document in the file at `path`. -/
def load (policy : Policy) (w : Workspace) (path : String) : Except Error Document :=
  match w.readText path with
  | .error flaw => .error (.file flaw)
  | .ok text => decode policy text

end Document

end Beamline

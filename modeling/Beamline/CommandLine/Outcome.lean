import Beamline.CommandLine.Extension
import Beamline.CommandLine.Invocation
import Beamline.CommandLine.Output
import Beamline.Deck.Reader
import Beamline.Deck.Writer
import Beamline.Document.Description
import Beamline.Document.Tree
import Beamline.Migration
import Beamline.Settings

/-!
# Outcomes

What the commands do, as functions of the files around them.

* `Command.run` : the output of a command or its failure, and the notes left on the way;
* `Invocation.outcome` : what a run prints, writes and returns.
-/

namespace Beamline

/-! ## Commands -/

/-- The notes on the warnings about a document as it is read. -/
def decodingNotes (policy : Policy) (text : String) : List Note :=
  match Json.parse text with
  | .ok v => (Beamline.validate policy v).notes
  | .error _ => []

/-- The lattice that was asked for, or the root of the document. -/
def Document.chosenLattice (d : Document) (asked : Option String) : Except Failure String :=
  match asked <|> d.root with
  | some name => .ok name
  | none => .error .noRoot

/-- What is done with the document in `file`. -/
def DocumentTask.run (w : Workspace) (file : String) (d : Document) :
    DocumentTask → Except Failure Output
  | describe name => do
    let text ← (d.describe name).mapError .plain
    return { text := Output.lines [text] }
  | tree lattice => do
    let name ← d.chosenLattice lattice
    let text ← (d.tree name).mapError .plain
    return { text }
  | expand lattice => do
    let name ← d.chosenLattice lattice
    let elements ← (d.expand name).mapError .plain
    return { text := Output.lines (elements.map (·.name)) }
  | format true => Output.overwrite w file d.encode
  | format false => return { text := d.encode }
  | toDeck dialect out => do
    let text ← (d.writeDeck dialect).mapError .plain
    Output.emit w out text

/-- What a command came to, and the notes left on the way. -/
abbrev Result := Except Failure Output × List Note

/-- What `use` makes of the text of a file. -/
def onFile (w : Workspace) (file : String) (use : String → Result) : Result :=
  match w.readText file with
  | .error flaw => (.error (.reading file flaw), [])
  | .ok text => use text

/-- Lists what is wrong with the document that a text spells. -/
def validateText (policy : Policy) (file text : String) : Result :=
  match Json.parse text with
  | .error fault => (.ok (.noJson file fault), [])
  | .ok v =>
    let report := Beamline.validate policy v
    (.ok (.report file report), report.notes)

/-- Reads the deck that a text spells and encodes its document. -/
def importText (w : Workspace) (dialect : Dialect) (out : Option String) (file text : String) :
    Result :=
  let (read, notes) := Document.readDeck dialect text
  ((read.mapError (.importing file)).bind fun d => Output.emit w out d.encode, notes)

/-- The raw document that a text spells, brought to another version, and that version. -/
def migrated (source target : Option Nat) (file text : String) : Except Failure (Json × Nat) := do
  let raw ← (Json.parse text).mapError (.parsing file)
  let source ←
    match source with
    | some v => pure v
    | none => (Migration.sourceVersion raw).mapError (.plain ∘ .migration)
  let target := target.getD Version.current.major
  let raw ← (Beamline.migrate raw source target).mapError (.plain ∘ .migration)
  return (raw, target)

/-- Brings the document that a text spells to another version. One of the current version has to
keep the rules. -/
def migrateText (policy : Policy) (source target : Option Nat) (file text : String) : Result :=
  match migrated source target file text with
  | .error f => (.error f, [])
  | .ok (raw, target) =>
    if target = Version.current.major then
      let decoded := (Document.decode policy raw.compactText).mapError Failure.invalidMigrated
      (decoded.map fun d => { text := d.encode }, decodingNotes policy raw.compactText)
    else (.ok { text := Output.lines [raw.indentedText] }, [])

/-- Decodes a text and does the task with its document. -/
def decodeText (w : Workspace) (policy : Policy) (task : DocumentTask) (file text : String) :
    Result :=
  let decoded := (Document.decode policy text).mapError (Failure.invalid file)
  (decoded.bind fun d => task.run w file d, decodingNotes policy text)

/-- What a command does. -/
def Command.run (w : Workspace) (policy : Policy) (c : Command) : Result :=
  match c.task with
  | .validate => onFile w c.file (validateText policy c.file)
  | .onDocument task => onFile w c.file (decodeText w policy task c.file)
  | .fromDeck dialect out =>
    match dialect <|> Dialect.ofPath? c.file with
    | none => (.error (.unknownDialect c.file), [])
    | some dialect => onFile w c.file (importText w dialect out c.file)
  | .migrate source target => onFile w c.file (migrateText policy source target c.file)

/-! ## Runs -/

/-- What a run prints, writes and returns. -/
structure Outcome where
  code : Nat
  out : String
  err : String
  file : Option (String × String)
  deriving DecidableEq

namespace Invocation

/-- The level at which a run tells more than its output, and the complaint if the word for it names
none. -/
def level (i : Invocation) : LogLevel × String :=
  match LogLevel.ofWord? i.logLevel with
  | some level => (level, "")
  | none => (.warn, s!"Invalid log level: {i.logLevel}. Using 'warn' instead.\n")

/-- What a run does, with its settings; `user` is the file with the user's own settings. -/
def run (i : Invocation) (w : Workspace) (user : Option String) : Result :=
  match Settings.find w i.settings user with
  | .error e => (.error (.plain e), [])
  | .ok policy => i.command.run w policy

/-- What a run prints, writes and returns. -/
def outcome (i : Invocation) (w : Workspace) (user : Option String) : Outcome :=
  let (level, complaint) := i.level
  let (result, notes) := i.run w user
  let notes := if level.showsNotes then notes.map fun n => "[WARN] " ++ n.text else []
  match result with
  | .ok o =>
    { code := o.code, out := o.text, err := complaint ++ Output.lines notes, file := o.file }
  | .error f =>
    { code := 1, out := "", err := complaint ++ Output.lines (notes ++ [f.text]), file := none }

end Invocation

end Beamline

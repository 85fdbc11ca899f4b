import Beamline.Dialect
import Beamline.Text.Blank

/-!
# Invocations

What the program is asked to do.

* `Command` : a file and what to do with it, `Task`, perhaps with the document in it,
  `DocumentTask`;
* `LogLevel` : how much the program tells besides its output;
* `Invocation` : a command with the options that all commands share.
-/

namespace Beamline

/-- What to do with the document in a file. -/
inductive DocumentTask where
  /-- Describes an element or a lattice. -/
  | describe (name : String)
  /-- Draws the nesting of a lattice, by default of the root. -/
  | tree (lattice : Option String)
  /-- Lists the elements of a lattice, by default of the root. -/
  | expand (lattice : Option String)
  /-- Encodes the document anew. -/
  | format (inPlace : Bool)
  /-- Writes the document as a deck. -/
  | toDeck (dialect : Dialect) (out : Option String)
  deriving DecidableEq, Repr

/-- What to do with a file. -/
inductive Task where
  /-- Lists what is wrong with its document. -/
  | validate
  /-- Decodes its document first. -/
  | onDocument (task : DocumentTask)
  /-- Reads the deck in it; the dialect is known from the name of the file if it is not given. -/
  | fromDeck (dialect : Option Dialect) (out : Option String)
  /-- Brings its document of one version to another. -/
  | migrate (source target : Option Nat)
  deriving DecidableEq, Repr

/-- A task with the file to read. -/
structure Command where
  file : String
  task : Task
  deriving DecidableEq, Repr

/-- How much the program tells besides its output, from nothing on. -/
inductive LogLevel where
  | off
  | error
  | warn
  | info
  | debug
  | trace
  deriving DecidableEq, Repr

namespace LogLevel

def words : List (String × LogLevel) :=
  [("off", off), ("error", error), ("warn", warn), ("info", info), ("debug", debug),
    ("trace", trace)]

/-- The level that a word names, in small or capital letters. -/
def ofWord? (word : String) : Option LogLevel :=
  words.lookup (String.ofList (Text.lower word.toList))

/-- Whether notes are shown. -/
def showsNotes : LogLevel → Bool
  | off | error => false
  | warn | info | debug | trace => true

end LogLevel

/-- A command with the options that all commands share. -/
structure Invocation where
  command : Command
  /-- The file with settings. -/
  settings : Option String
  /-- The word for the log level. -/
  logLevel : String
  deriving DecidableEq, Repr

end Beamline

import Beamline.Deck.Flaw
import Beamline.Dialect
import Beamline.Document.Gap
import Beamline.Json.Fault
import Beamline.Migration.Flaw
import Beamline.Violation
import Beamline.Workspace

/-!
# Errors

* `Error` : everything that can go wrong, by its cause;
* `Error.message` : the wording;
* `Error.ofViolations` : the error that a list of violations amounts to. Broken rules about single
  entries come before undefined names, and those before cycles.
-/

namespace Beamline

/-- What can be looked up by its name. -/
inductive Wanted where
  | element
  | lattice
  | elementOrLattice
  deriving DecidableEq, Repr

def Wanted.label : Wanted → String
  | .element => "element"
  | .lattice => "lattice"
  | .elementOrLattice => "element or lattice"

/-- A name that is not defined, and where it stands. -/
structure Dangling where
  name : String
  path : String
  deriving DecidableEq, Repr

inductive Error where
  /-- The text is no JSON. -/
  | parse (fault : Json.Fault)
  /-- The document breaks rules about single entries. -/
  | validation (violations : List Violation)
  /-- The document uses names that it does not define. -/
  | reference (missing : List Dangling) (violations : List Violation)
  /-- Lattices contain themselves. -/
  | cycle (cycles : List (List String)) (violations : List Violation)
  | notFound (wanted : Wanted) (name : String)
  | exporting (dialect : Dialect) (obstacle : Deck.Obstacle)
  | importing (dialect : Dialect) (line : Nat) (flaw : Deck.Flaw)
  | migration (flaw : Migration.Flaw)
  | settings (path reason : String)
  | file (flaw : FileFlaw)
  /-- Validation accepted a raw value that describes no document. -/
  | internal (gap : Document.Gap)
  deriving DecidableEq

/-- The names that violations say are not defined. -/
def danglingOf (vs : List Violation) : List Dangling :=
  vs.filterMap fun v =>
    match v.rule with
    | .reference name => some ⟨name, v.path⟩
    | _ => none

/-- The cycles that violations tell of. -/
def cyclesOf (vs : List Violation) : List (List String) :=
  vs.filterMap fun v =>
    match v.rule with
    | .cycle names => some names
    | _ => none

/-- Texts on lines of their own behind a heading. -/
def listed (heading : String) (entries : List String) : String :=
  entries.foldl (fun s entry => s ++ "\n  " ++ entry) heading

/-- The violations of a document with their number. -/
def violationList (vs : List Violation) : String :=
  listed ("document failed validation with " ++ toString vs.length ++ " violation(s)")
    (vs.map Violation.text)

def arrows (names : List String) : String :=
  " -> ".intercalate names

namespace Error

/-- The error that the violations of a document amount to. -/
def ofViolations (vs : List Violation) : Error :=
  if vs.any (·.rule.isStructural) then .validation vs
  else if !(danglingOf vs).isEmpty then .reference (danglingOf vs) vs
  else if !(cyclesOf vs).isEmpty then .cycle (cyclesOf vs) vs
  else .validation vs

/-- The violations that an error is made of. -/
def violations : Error → List Violation
  | validation vs | reference _ vs | cycle _ vs => vs
  | _ => []

def message : Error → String
  | parse f =>
    "parse error at line " ++ toString f.place.line ++ ", column " ++ toString f.place.column ++
      ": " ++ f.message
  | validation vs => violationList vs
  | reference missing vs =>
    listed "undefined object(s) referenced:"
      (missing.map (fun m => "'" ++ m.name ++ "' at " ++ m.path) ++
        (cyclesOf vs).map fun c => "cyclic nesting " ++ arrows c)
  | cycle cycles _ => "cyclic lattice nesting: " ++ "; ".intercalate (cycles.map arrows)
  | notFound wanted name => "no " ++ wanted.label ++ " named '" ++ name ++ "'"
  | exporting dialect obstacle =>
    "cannot export to " ++ dialect.name ++ ": " ++ obstacle.message
  | importing dialect line flaw =>
    "cannot import " ++ dialect.name ++ " input at line " ++ toString line ++ ": " ++ flaw.message
  | migration flaw => "migration failed: " ++ flaw.message
  | settings path reason => s!"invalid configuration in {path}: {reason}"
  | file flaw => "I/O operation failed: " ++ flaw.message
  | internal gap => "internal invariant violated: " ++ gap.message

end Error

end Beamline

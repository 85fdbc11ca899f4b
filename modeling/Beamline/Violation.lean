/-!
# Violations

A violation says that a place in a document breaks a rule, and how serious that is.
-/

namespace Beamline

inductive Severity where
  | error
  | warning
  deriving DecidableEq, Repr

def Severity.label : Severity → String
  | .error => "error"
  | .warning => "warning"

/-- The kinds of rules that a document is held to. -/
inductive Rule where
  /-- The keys at the top, the form of their values, the version. -/
  | shape
  /-- The entry of an element. -/
  | element
  /-- The entry of a lattice, and the choice of the root. -/
  | lattice
  /-- A name that is not defined. -/
  | reference (name : String)
  /-- A lattice that contains itself, with the names from it back to it. -/
  | cycle (names : List String)
  deriving DecidableEq, Repr

namespace Rule

def label : Rule → String
  | shape => "shape"
  | element => "element"
  | lattice => "lattice"
  | reference _ => "reference"
  | cycle _ => "cycle"

/-- Whether the rule speaks of one entry by itself. -/
def isStructural : Rule → Bool
  | shape | element | lattice => true
  | reference _ | cycle _ => false

end Rule

/-- A rule broken at a place. -/
structure Violation where
  severity : Severity
  rule : Rule
  path : String
  reason : String
  deriving DecidableEq, Repr

namespace Violation

def isError (v : Violation) : Bool :=
  v.severity == .error

/-- The violation on one line; the top of the document shows as `/`. -/
def text (v : Violation) : String :=
  let path := if v.path.isEmpty then "/" else v.path
  v.severity.label ++ "[" ++ v.rule.label ++ "] " ++ path ++ ": " ++ v.reason

end Violation

end Beamline

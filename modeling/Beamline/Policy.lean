/-!
# Policies

What a reader of documents asks for besides the rules that always hold.
-/

namespace Beamline

/-- What unknown keys are: errors, or worth a warning only. -/
inductive Mode where
  | strict
  | lenient
  deriving DecidableEq, Repr

/-- How a lattice may hold another one: written in place, by its name, or both. -/
inductive Nesting where
  | inline
  | named
  | both
  deriving DecidableEq, Repr

namespace Nesting

def allowsInline (n : Nesting) : Bool := n != named

def allowsNamed (n : Nesting) : Bool := n != inline

end Nesting

structure Policy where
  mode : Mode := .strict
  nesting : Nesting := .both
  deriving DecidableEq, Repr

/-- Strict, with both forms of nesting. -/
def Policy.standard : Policy := {}

end Beamline

/-!
# What can stop a migration

* `Migration.Flaw` : the ways in which a document cannot be brought to another version.
-/

namespace Beamline.Migration

/-- Why a document cannot be brought to another version. -/
inductive Flaw where
  | unreadableVersion (raw : String)
  | versionNotText (value : String)
  | badRange (source target latest : Nat)
  | notObject
  | keyNotObject (key : String)
  | elementNotObject (name : String)
  | elementWithoutType (name : String)
  | unknownType (name tag : String)
  | noLattice
  deriving DecidableEq, Repr

def Flaw.message : Flaw → String
  | unreadableVersion raw => s!"unreadable version '{raw}'"
  | versionNotText value => s!"version must be a string, found {value}"
  | badRange source target latest =>
    s!"cannot migrate from version {source} to version {target} (latest is {latest})"
  | notObject => "document is not an object"
  | keyNotObject key => s!"'{key}' must be an object"
  | elementNotObject name => s!"element '{name}' is not an object"
  | elementWithoutType name => s!"element '{name}' has no type"
  | unknownType name tag => s!"element '{name}' has unknown type '{tag}'"
  | noLattice => "document has no 'lattice'"

end Beamline.Migration

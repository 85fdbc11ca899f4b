import Beamline.Error
import Beamline.Json.Writer
import Beamline.Version

/-!
# Migration of raw documents

Documents of older versions are brought up to date as raw values, one major version at a time.

* `Migration.zeroToOne` : the kind of an element leaves its parameters;
* `Migration.oneToTwo` : the main lattice joins the others, descriptions become remarks;
* `Migration.twoToThree` : kinds get the names of the catalogue;
* `migrate` : the steps between two versions, `migrateToCurrent` those from the declared version.
-/

namespace Beamline

namespace Migration

/-- The name of the main lattice among the others. -/
def mainLattice : String := "__MAIN__"

/-- The version entry of a document of major version `n`. -/
def versionEntry (n : Nat) : Json :=
  .str (Version.mk n 0).text

/-- The major version that a raw document declares; one that declares none has version 0. -/
def sourceVersion (v : Json) : Except Flaw Nat :=
  match v.get? "version" with
  | none => .ok 0
  | some (.str raw) =>
    match Version.parse? raw with
    | some version => .ok version.major
    | none => .error (.unreadableVersion raw)
  | some other => .error (.versionNotText other.compactText)

/-- Changes the entries of the elements of a document. -/
def mapElements (f : (name : String) → Json → Except Flaw Json) (doc : List (String × Json)) :
    Except Flaw (List (String × Json)) :=
  match (doc.lookup "elements").bind Json.members? with
  | none => .error (.keyNotObject "elements")
  | some elements => do
    let elements ← elements.mapM fun (name, entry) => return (name, ← f name entry)
    return Table.put "elements" (.obj elements) doc

/-! ## From version 0 to 1 -/

/-- The pair of an element's kind and parameters, the kind so far being a parameter. -/
def splitType (name : String) (entry : Json) : Except Flaw Json :=
  match entry.members? with
  | none => .error (.elementNotObject name)
  | some params =>
    match Table.take? "type" params with
    | none => .error (.elementWithoutType name)
    | some (kind, params) => .ok (.arr [kind, .obj params])

def zeroToOne (doc : List (String × Json)) : Except Flaw (List (String × Json)) := do
  let doc ← mapElements splitType doc
  return Table.put "version" (versionEntry 1) doc

/-! ## From version 1 to 2 -/

/-- Whether a description says anything. -/
def isTelling : Json → Bool
  | .null | .bool false => false
  | .str s => !s.isEmpty
  | _ => true

/-- The table with the description, if it says anything, as `info`. -/
def renameDescription (t : List (String × Json)) : List (String × Json) :=
  match Table.take? "description" t with
  | none => t
  | some (description, t) => if isTelling description then Table.put "info" description t else t

/-- The entry of an element with its description as remark. -/
def describeElement (entry : Json) : Json :=
  match entry with
  | .arr (kind :: .obj params :: rest) => .arr (kind :: .obj (renameDescription params) :: rest)
  | entry => entry

/-- The table with the name as `title`. -/
def renameName (doc : List (String × Json)) : List (String × Json) :=
  match Table.take? "name" doc with
  | none => doc
  | some (name, doc) => Table.put "title" name doc

/-- The further lattices of a document, and the document without them. -/
def takeSubLattices (doc : List (String × Json)) :
    Except Flaw (List (String × Json) × List (String × Json)) :=
  match Table.take? "sub_lattices" doc with
  | none => .ok ([], doc)
  | some (.obj subs, doc) => .ok (subs, doc)
  | some _ => .error (.keyNotObject "sub_lattices")

/-- The main lattice of a document, and the document without it. -/
def takeMain (doc : List (String × Json)) : Except Flaw (Json × List (String × Json)) :=
  match Table.take? "lattice" doc with
  | none => .error .noLattice
  | some taken => .ok taken

def oneToTwo (doc : List (String × Json)) : Except Flaw (List (String × Json)) := do
  let (subs, doc) ← takeSubLattices (renameName doc)
  let (main, doc) ← takeMain doc
  let doc := Table.put "lattices" (.obj (Table.put mainLattice main subs)) doc
  let doc := renameDescription (Table.put "root" (.str mainLattice) doc)
  let doc ← mapElements (fun _ entry => .ok (describeElement entry)) doc
  return Table.put "version" (versionEntry 2) doc

/-! ## From version 2 to 3 -/

/-- The names that kinds had up to version 2. -/
def formerTags : List (String × Kind) :=
  [("Drift", .drift), ("Dipole", .dipole), ("Sbend", .dipole), ("SBend", .dipole),
    ("Quadrupole", .quadrupole), ("Sextupole", .sextupole), ("Octupole", .octupole),
    ("Solenoid", .solenoid), ("Cavity", .cavity), ("RFCavity", .cavity), ("Kicker", .kicker),
    ("Multipole", .multipole), ("Monitor", .monitor), ("Marker", .marker)]

/-- The entry of an element with the present name of its kind. -/
def renameKind (name : String) (entry : Json) : Except Flaw Json :=
  match entry with
  | .arr (tag :: rest) =>
    let former := tag.text?.getD ""
    match formerTags.lookup former with
    | some k => .ok (.arr (.str k.tag :: rest))
    | none => .error (.unknownType name former)
  | _ => .error (.elementWithoutType name)

def twoToThree (doc : List (String × Json)) : Except Flaw (List (String × Json)) := do
  let doc ← mapElements renameKind doc
  return Table.put "version" (versionEntry 3) doc

/-! ## All steps -/

/-- The steps, each with the version it starts from. -/
def steps : List (Nat × (List (String × Json) → Except Flaw (List (String × Json)))) :=
  [(0, zeroToOne), (1, oneToTwo), (2, twoToThree)]

/-- The steps from version `source` on that end at version `target` or before. -/
def run (source target : Nat) (doc : List (String × Json)) :
    Except Flaw (List (String × Json)) :=
  (steps.filter fun s => source ≤ s.1 && s.1 < target).foldlM (fun doc s => s.2 doc) doc

end Migration

open Migration

/-- The raw document of major version `source` brought to major version `target`. -/
def migrate (v : Json) (source target : Nat) : Except Migration.Flaw Json :=
  let latest := Version.current.major
  if target < source ∨ latest < target then .error (.badRange source target latest)
  else
    match v.members? with
    | none => .error .notObject
    | some doc => (Migration.run source target doc).map .obj

/-- The raw document brought to the current version from the version that it declares. -/
def migrateToCurrent (v : Json) : Except Migration.Flaw Json := do
  migrate v (← sourceVersion v) Version.current.major

end Beamline

import Beamline.Validation.Finding

/-!
# The shape of a document

The keys at the top of a document, the form of their values and the version.

* `shapeFindings` : what is wrong with the required keys, the forms and the version;
* `unknownKeyFindings` : the keys that the format does not know;
* `readableVersion?` : the version of a document that can be read.
-/

namespace Beamline.Validation

/-- The keys that every document has. -/
def requiredKeys : List String := ["version", "elements", "lattices"]

/-- The keys whose values are tables of definitions. -/
def tableKeys : List String := ["elements", "lattices"]

/-- The keys whose values are strings, besides the version. -/
def textKeys : List String := ["title", "info", "root"]

/-- All keys that the format knows. -/
def knownKeys : List String := ["version", "title", "info", "root", "elements", "lattices"]

/-- The version that a version entry declares, if it can be read. -/
def checkVersion (entry : Json) : Except Complaint Version :=
  match entry.text? with
  | none => .error (.keyNotText "version")
  | some raw =>
    match Version.parse? raw with
    | none => .error (.badVersion raw)
    | some v => if v.readable then .ok v else .error (.otherVersion v)

/-- The version of a document, if it has one that can be read. -/
def readableVersion? (doc : List (String × Json)) : Option Version :=
  (doc.lookup "version").bind fun entry => (checkVersion entry).toOption

/-- Complaint `c` about the member `key`, if it is there and its value fails `ok`. -/
def demand (doc : List (String × Json)) (key : String) (ok : Json → Bool) (c : Complaint) :
    List Finding :=
  match doc.lookup key with
  | none => []
  | some v => if ok v then [] else [⟨[key], c⟩]

def versionFindings (doc : List (String × Json)) : List Finding :=
  match doc.lookup "version" with
  | none => []
  | some entry =>
    match checkVersion entry with
    | .ok _ => []
    | .error c => [⟨["version"], c⟩]

def shapeFindings (doc : List (String × Json)) : List Finding :=
  (requiredKeys.filter fun key => !Table.has doc key).map (fun key => ⟨[], .missingKey key⟩) ++
    tableKeys.flatMap (fun key => demand doc key Json.isObject (.keyNotObject key)) ++
    textKeys.flatMap (fun key => demand doc key Json.isText (.keyNotText key)) ++
    versionFindings doc

def unknownKeyFindings (doc : List (String × Json)) : List Finding :=
  ((Table.keys doc).filter fun key => !knownKeys.contains key).map fun key =>
    ⟨[key], .unknownKey key⟩

end Beamline.Validation

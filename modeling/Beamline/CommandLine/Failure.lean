import Beamline.Error

/-!
# Failures of commands

* `Failure` : why a command gives up;
* `Failure.text` : what it says then, the circumstances first and their cause behind a colon.
-/

namespace Beamline

/-- The messages of an error and of the causes behind it. -/
def Error.chain (e : Error) : List String :=
  match e with
  | .file flaw => [e.message, flaw.message]
  | e => [e.message]

/-- Why a command gives up. -/
inductive Failure where
  | plain (e : Error)
  | reading (file : String) (flaw : FileFlaw)
  | writing (file : String) (flaw : FileFlaw)
  /-- The file holds no document. -/
  | invalid (file : String) (e : Error)
  /-- The file holds no JSON. -/
  | parsing (file : String) (fault : Json.Fault)
  | importing (file : String) (e : Error)
  | invalidMigrated (e : Error)
  | unknownDialect (file : String)
  | noRoot
  deriving DecidableEq

namespace Failure

/-- What a failure says, the outermost circumstance first. -/
def chain : Failure → List String
  | plain e => e.chain
  | reading file flaw => ["failed to read " ++ file, flaw.message]
  | writing file flaw => ["failed to write " ++ file, flaw.message]
  | invalid file e => ("invalid file " ++ file) :: e.chain
  | parsing file fault => ("failed to parse " ++ file) :: (Error.parse fault).chain
  | importing file e => ("failed to import " ++ file) :: e.chain
  | invalidMigrated e => "migrated document does not validate" :: e.chain
  | unknownDialect file =>
    ["cannot tell the language of " ++ file ++ " from its extension, pass --from"]
  | noRoot => ["no lattice given and the document has no root"]

/-- What a failure says on one line. -/
def text (f : Failure) : String :=
  ": ".intercalate f.chain

end Failure

end Beamline

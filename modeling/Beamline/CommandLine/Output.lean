import Beamline.CommandLine.Failure
import Beamline.Validation

/-!
# Outputs

* `Output` : what a command prints, the file it writes, and the code that it returns;
* `Output.emit`, `Output.overwrite` : text for the screen or a file;
* `Output.report` : what validation says of a document.
-/

namespace Beamline

/-- What a command prints, the file it writes, and the code that it returns. -/
structure Output where
  text : String
  file : Option (String × String) := none
  code : Nat := 0
  deriving DecidableEq

namespace Output

/-- Each text on a line of its own. -/
def lines (texts : List String) : String :=
  texts.foldr (fun line rest => line ++ "\n" ++ rest) ""

/-- Prints a text, or writes it to the file `out`. -/
def emit (w : Workspace) (out : Option String) (text : String) : Except Failure Output :=
  match out with
  | none => .ok { text }
  | some path =>
    match w.write path with
    | .ok () => .ok { text := "Wrote " ++ path ++ "\n", file := some (path, text) }
    | .error flaw => .error (.writing path flaw)

/-- Writes a text to a file and prints nothing. -/
def overwrite (w : Workspace) (path text : String) : Except Failure Output :=
  match w.write path with
  | .ok () => .ok { text := "", file := some (path, text) }
  | .error flaw => .error (.writing path flaw)

/-- Lists what validation says of a value. -/
def report (file : String) (r : Validation.Report) : Output :=
  if r.accepted then { text := lines (r.warnings.map Violation.text ++ [file ++ ": valid"]) }
  else
    let count := toString r.errors.length ++ " error(s)"
    { text := lines (r.errors.map Violation.text ++ [file ++ ": " ++ count]), code := 1 }

/-- Says why a text is no JSON. -/
def noJson (file : String) (fault : Json.Fault) : Output where
  text := lines [file ++ ": " ++ (Error.parse fault).message]
  code := 1

end Output

end Beamline

import Beamline.Dialect
import Beamline.Text.Blank
import Beamline.Workspace

/-!
# Dialects from file names

* `Dialect.ofPath?` : the dialect that the extension of a file's name tells.
-/

namespace Beamline

/-- The names of the endings that files of a dialect have. -/
def Dialect.extensions : List (String × Dialect) :=
  [("lte", .elegant), ("madx", .madx), ("seq", .madx), ("mad", .madx)]

/-- The last name in a path. -/
def fileName? (path : String) : Option (List Char) :=
  match ((Workspace.names path).filter fun n => n != "" && n != ".").getLast? with
  | none | some ".." => none
  | some name => some name.toList

/-- What stands behind the last dot of the file's name, if something stands before it. -/
def extension? (path : String) : Option (List Char) := do
  let reversed := (← fileName? path).reverse
  match reversed.dropWhile (· != '.') with
  | _ :: _ :: _ => return (reversed.takeWhile (· != '.')).reverse
  | _ => none

/-- The dialect that the ending of a path tells, in small or capital letters. -/
def Dialect.ofPath? (path : String) : Option Dialect :=
  (extension? path).bind fun ext => extensions.lookup (String.ofList (Text.lower ext))

end Beamline

/-!
# Workspaces

A workspace is what a run of the program sees of the files around it: what reading a path gives,
and whether a path can be written.

* `FileFlaw` : why a file cannot be read or written;
* `Workspace.readText` : the content of a file as text;
* `Workspace.ofContents` : the workspace with given files.
-/

namespace Beamline

/-- Why a file cannot be read or written. -/
inductive FileFlaw where
  | missing
  | isDirectory
  | notDirectory
  | notText
  | other (message : String)
  deriving DecidableEq, Repr

def FileFlaw.message : FileFlaw → String
  | missing => "No such file or directory (os error 2)"
  | isDirectory => "Is a directory (os error 21)"
  | notDirectory => "Not a directory (os error 20)"
  | notText => "stream did not contain valid UTF-8"
  | other message => message

/-- What a run sees of the files around it. -/
structure Workspace where
  read : String → Except FileFlaw ByteArray
  write : String → Except FileFlaw Unit

namespace Workspace

/-- Whether there is anything at a path. -/
def holds (w : Workspace) (path : String) : Bool :=
  match w.read path with
  | .ok _ | .error .isDirectory => true
  | .error _ => false

/-- The text that bytes spell in UTF-8. -/
def decodeText (bytes : ByteArray) : Except FileFlaw String :=
  match String.fromUTF8? bytes with
  | some s => .ok s
  | none => .error .notText

/-- The content of a file as text. -/
def readText (w : Workspace) (path : String) : Except FileFlaw String := do
  decodeText (← w.read path)

/-! ## Files in memory -/

/-- The names in a path. -/
def names (path : String) : List String :=
  (path.toList.splitOnP (· == '/')).map String.ofList

/-- Directories and files, each by the names that lead to it. -/
structure Contents where
  directories : List (List String)
  files : List (List String × ByteArray)

namespace Contents

/-- Whether a path is known as a directory: something lies in it, or it is one of the directories
that are there even if empty. The working directory and those around it are there. -/
def isDirectory (c : Contents) (dir : List String) : Bool :=
  dir.all (· == "..") || c.directories.contains dir ||
    c.files.any fun f => dir.isPrefixOf f.1 && dir.length < f.1.length

/-- Why a path is no directory. -/
def noDirectory (c : Contents) (path : List String) : FileFlaw :=
  if (c.files.lookup path).isSome then .notDirectory else .missing

/-- The place that the names of a path lead to from `dir`. -/
def follow (c : Contents) (dir : List String) : List String → Except FileFlaw (List String)
  | [] => .ok dir
  | name :: rest =>
    if !c.isDirectory dir then .error (c.noDirectory dir)
    else if name = "" || name = "." then c.follow dir rest
    else if name = ".." && dir.getLast?.any (· != "..") then c.follow dir.dropLast rest
    else c.follow (dir ++ [name]) rest

/-- What lies at a path. -/
def read (c : Contents) (path : String) : Except FileFlaw ByteArray := do
  if path.isEmpty then throw .missing
  let place ← c.follow [] (names path)
  match c.files.lookup place with
  | some bytes => return bytes
  | none => throw (if c.isDirectory place then .isDirectory else .missing)

/-- Where a file would be written. A path that ends in a slash names no file. -/
def target (c : Contents) (path : String) : Except FileFlaw (List String) := do
  if path.isEmpty then throw .missing
  let _ ← c.follow [] (names path).dropLast
  if path.endsWith "/" then throw .isDirectory
  let place ← c.follow [] (names path)
  if c.isDirectory place then throw .isDirectory
  if !c.isDirectory place.dropLast then throw (c.noDirectory place.dropLast)
  return place

end Contents

/-- The workspace with the given contents. -/
def ofContents (c : Contents) : Workspace where
  read := c.read
  write path := do
    let _ ← c.target path

end Workspace

end Beamline

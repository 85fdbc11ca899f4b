import Beamline.CommandLine.Arguments
import Beamline.CommandLine.Outcome

/-!
# The command line

* `main` : reads the files that an invocation can ask for, and prints and writes its outcome.
-/

namespace Beamline

/-- How the program is called. -/
def usage : String :=
  Output.lines [
    "Validate, inspect and convert LatticeJSON files",
    "",
    "Usage: latticejson [OPTIONS] <COMMAND>",
    "",
    "Commands:",
    "  validate <FILE>             Check a file and list every violation",
    "  show <FILE> <NAME>          Describe one element or lattice",
    "  tree <FILE> [LATTICE]       Print the nesting of a lattice (default: the root)",
    "  expand <FILE> [LATTICE]     Print the element sequence of a lattice (default: the root)",
    "  format <FILE> [-i]          Re-encode a file in canonical form",
    "  export <FILE> --to <TO>     Convert to another lattice language (elegant, madx)",
    "  import <FILE> [--from ...]  Read an elegant or MAD-X lattice file into LatticeJSON",
    "  migrate <FILE>              Bring a file to another format version",
    "",
    "Options:",
    "      --config <CONFIG>        Path to a configuration file",
    "      --log-level <LOG_LEVEL>  Log level (off, error, warn, info, debug, trace)",
    "  -h, --help                   Print help"]

/-- The number of a system error, whose code may have its sign turned round. -/
def errorNumber (code : UInt32) : Nat :=
  min code.toNat (0x100000000 - code.toNat)

/-- Why an operation on a file failed. -/
def flawOf (e : IO.Error) : FileFlaw :=
  match e with
  | .noFileOrDirectory .. => .missing
  | .inappropriateType _ code _ => if errorNumber code = 20 then .notDirectory else .isDirectory
  | .permissionDenied .. => .other "Permission denied (os error 13)"
  | e => .other (toString e)

/-- What lies at a path. -/
def readBytes (path : String) : IO (Except FileFlaw ByteArray) := do
  try
    return .ok (← IO.FS.readBinFile path)
  catch e => return .error (flawOf e)

/-- Writes a text to a file. -/
def writeText (path text : String) : IO (Except FileFlaw Unit) := do
  try
    IO.FS.writeFile path text
    return .ok ()
  catch e => return .error (flawOf e)

/-- The file with the user's own settings. -/
def userSettings : IO (Option String) := do
  let home ← IO.getEnv "HOME"
  let config := (← IO.getEnv "XDG_CONFIG_HOME").filter (·.startsWith "/")
  return (config <|> home.map (· ++ "/.config")).map (· ++ "/latticejson/" ++ Settings.fileName)

/-- Prints an outcome and returns its code. -/
def Outcome.print (o : Outcome) : IO UInt32 := do
  IO.print o.out
  IO.eprint o.err
  return o.code.toUInt32

/-- Does what an invocation asks for. If its file cannot be written, the outcome is that of a
workspace that does not let it. -/
def Invocation.perform (i : Invocation) : IO UInt32 := do
  let user ← userSettings
  let paths := i.command.file :: Settings.fileName :: i.settings.toList ++ user.toList
  let files ← paths.mapM fun path => return (path, ← readBytes path)
  let read (path : String) := (files.lookup path).getD (.error .missing)
  let o := i.outcome ⟨read, fun _ => .ok ()⟩ user
  match o.file with
  | none => o.print
  | some (path, text) =>
    match ← writeText path text with
    | .ok () => o.print
    | .error flaw => (i.outcome ⟨read, fun _ => .error flaw⟩ user).print

end Beamline

open Beamline

def main (args : List String) : IO UInt32 := do
  match Request.ofArguments args with
  | .run i => i.perform
  | .help =>
    IO.print usage
    return 0
  | .refused =>
    IO.eprint usage
    return 2

import Beamline.Error
import Beamline.Policy
import Beamline.Toml.Reader

/-!
# Settings

Settings are a TOML table. Its one entry `validation` chooses the policy:

```toml
[validation]
mode = "lenient"   # or "strict"
nesting = "both"   # or "inline", "named"
```

* `Settings.Flaw` : what can be wrong with the text of settings, with its wording;
* `Settings.parse` : the policy that a text chooses;
* `Settings.load` : the policy that a file chooses;
* `Settings.find` : the policy of the first place that has settings.
-/

namespace Beamline.Settings

open Toml (Value)

/-- What can be wrong with settings. -/
inductive Flaw where
  | notToml
  | unknownField (name : String)
  | unknownVariant (name : String) (known : List String)
  | wrongType (found wanted : String)
  | noTextOrTable
  | noVariant
  | manyVariants
  | variantWithContent (form : String)
  | variantNotTable (found : String)
  deriving DecidableEq, Repr

/-- Names in backquotes, as a choice. -/
def choice (names : List String) : String :=
  match names.map fun n => "`" ++ n ++ "`" with
  | [a, b] => a ++ " or " ++ b
  | names => "one of " ++ ", ".intercalate names

def Flaw.message : Flaw → String
  | notToml => "invalid TOML"
  | unknownField name => "unknown field `" ++ name ++ "`, expected `validation`"
  | unknownVariant name known => "unknown variant `" ++ name ++ "`, expected " ++ choice known
  | wrongType found wanted => "invalid type: " ++ found ++ ", expected " ++ wanted
  | noTextOrTable => "wanted string or table"
  | noVariant => "wanted exactly 1 element, found 0 elements"
  | manyVariants => "wanted exactly 1 element, more than 1 element"
  | variantWithContent form => "expected empty " ++ form
  | variantNotTable found => "expected table, found " ++ found

/-! ## Values -/

/-- The type of a value. -/
def typeName : Value → String
  | .text _ => "string"
  | .integer _ => "integer"
  | .float _ => "float"
  | .boolean _ => "boolean"
  | .date => "datetime"
  | .array _ => "array"
  | .table _ => "table"

/-- A value as a complaint shows it. -/
def shown : Value → String
  | .text s => "string " ++ String.ofList (s.quote.toList)
  | .integer ds => "integer `" ++ ds ++ "`"
  | .float ds => "floating point `" ++ ds ++ "`"
  | .boolean b => "boolean `" ++ (if b then "true" else "false") ++ "`"
  | .date => "map"
  | .array _ => "sequence"
  | .table _ => "map"

/-- The choice that a name stands for. -/
def variant {α : Type} (known : List (String × α)) (name : String) : Except Flaw α :=
  match known.lookup name with
  | some a => .ok a
  | none => .error (.unknownVariant name (known.map Prod.fst))

/-- The choice that a value stands for: a name, or a table with an empty entry of that name. -/
def chosen {α : Type} (known : List (String × α)) (v : Value) : Except Flaw α :=
  match v with
  | .text name => variant known name
  | .table [] => .error .noVariant
  | .table [(name, content)] => do
    let a ← variant known name
    match content with
    | .array [] | .table [] => return a
    | .array _ => throw (.variantWithContent "array")
    | .table _ => throw (.variantWithContent "table")
    | other => throw (.variantNotTable (typeName other))
  | .table _ => .error .manyVariants
  | _ => .error .noTextOrTable

def modes : List (String × Mode) :=
  [("strict", .strict), ("lenient", .lenient)]

def nestings : List (String × Nesting) :=
  [("inline", .inline), ("named", .named), ("both", .both)]

/-- The choice that an optional value stands for. -/
def chosenOr {α : Type} (known : List (String × α)) (otherwise : α) (v : Option Value) :
    Except Flaw α :=
  match v with
  | none => .ok otherwise
  | some v => chosen known v

/-- The policy that a value chooses: a table, or an array of the mode and the nesting. -/
def policy (v : Value) : Except Flaw Policy :=
  let std := Policy.standard
  match v with
  | .table entries => do
    let mode ← chosenOr modes std.mode (entries.lookup "mode")
    let nesting ← chosenOr nestings std.nesting (entries.lookup "nesting")
    return { mode, nesting }
  | .array items => do
    let mode ← chosenOr modes std.mode items[0]?
    let nesting ← chosenOr nestings std.nesting items[1]?
    return { mode, nesting }
  | .date => .ok std
  | other => .error (.wrongType (shown other) "struct ValidateOptions")

/-! ## Texts -/

/-- Takes in one entry of the table; only `validation` is known. -/
def takeEntry (_ : Policy) (entry : String × Value) : Except Flaw Policy :=
  if entry.1 = "validation" then policy entry.2 else .error (.unknownField entry.1)

/-- The policy that a text chooses. Entries are looked at in the order of their keys. -/
def parse (text : String) : Except Flaw Policy :=
  match Toml.parse? text with
  | none => .error .notToml
  | some entries => (entries.mergeSort fun a b => a.1 ≤ b.1).foldlM takeEntry .standard

/-! ## Files -/

/-- The policy that the file at `path` chooses. -/
def load (w : Workspace) (path : String) : Except Error Policy :=
  if !w.holds path then .error (.settings path "file does not exist")
  else
    match w.readText path with
    | .error flaw => .error (.file flaw)
    | .ok text => (parse text).mapError fun flaw => .settings path flaw.message

/-- The name of the file with settings. -/
def fileName : String := "latticejson.toml"

/-- The policy of the file that was asked for, of the file in the working directory, or of the
user's own file; the standard policy if there is none of them. -/
def find (w : Workspace) (asked user : Option String) : Except Error Policy :=
  match asked with
  | some path => load w path
  | none =>
    if w.holds fileName then load w fileName
    else
      match user with
      | some path => if w.holds path then load w path else .ok .standard
      | none => .ok .standard

end Beamline.Settings

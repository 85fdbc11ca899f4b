import Beamline.CommandLine.Invocation
import Beamline.Decimal.Basic

/-!
# Arguments

Arguments are read from the left. An argument that starts with `-` is an option, `-` by itself and
everything behind `--` apart. The value of an option is the next argument, or stands behind `=` in
the same one; behind the letter of an option it may stand without `=`. An option comes at most once
before and once behind the name of the command.

* `ValueForm.admits` : what a value may be;
* `scan` : arguments as options and positionals, every value of the right form;
* `Request.ofArguments` : what arguments ask for.
-/

namespace Beamline

/-! ## Values -/

/-- What the value of an argument may be. -/
inductive ValueForm where
  | path
  | text
  | dialect
  | version
  deriving DecidableEq, Repr

/-- The dialects as arguments name them. -/
def Dialect.words : List (String × Dialect) :=
  [("elegant", .elegant), ("madx", .madx)]

/-- The number below `2 ^ 32` that a text spells, perhaps with a sign. -/
def Arguments.number? (text : String) : Option Nat :=
  match text.toList with
  | '+' :: cs => Decimal.natBelow? 0x100000000 cs
  | '-' :: cs => Decimal.natBelow? 1 cs
  | cs => Decimal.natBelow? 0x100000000 cs

/-- Whether a value has the form. -/
def ValueForm.admits (form : ValueForm) (value : String) : Bool :=
  match form with
  | path => !value.isEmpty
  | text => true
  | dialect => (Dialect.words.lookup value).isSome
  | version => (Arguments.number? value).isSome

/-! ## Options -/

/-- An option: its name, its letter, and the form of its value if it has one. -/
structure Switch where
  name : String
  letter : Option Char := none
  value : Option ValueForm := none
  deriving DecidableEq, Repr

namespace Switch

def settings : Switch := { name := "config", value := some .path }

def logLevel : Switch := { name := "log-level", value := some .text }

def inPlace : Switch := { name := "in-place", letter := some 'i' }

def out : Switch := { name := "out", letter := some 'o', value := some .path }

def toDialect : Switch := { name := "to", value := some .dialect }

def fromDialect : Switch := { name := "from", value := some .dialect }

def toVersion : Switch := { name := "to", value := some .version }

def fromVersion : Switch := { name := "from", value := some .version }

/-- The option that asks for help. -/
def help : Switch := { name := "help", letter := some 'h' }

/-- The options that stand anywhere. -/
def shared : List Switch := [settings, logLevel, help]

end Switch

/-- The arguments that a command takes: positionals in order and options besides the shared ones.
-/
structure Signature where
  positionals : List ValueForm
  switches : List Switch

namespace Arguments

/-- The arguments that each command takes. -/
def signatures : List (String × Signature) :=
  [("validate", ⟨[.path], []⟩),
    ("show", ⟨[.path, .text], []⟩),
    ("tree", ⟨[.path, .text], []⟩),
    ("expand", ⟨[.path, .text], []⟩),
    ("format", ⟨[.path], [.inPlace]⟩),
    ("export", ⟨[.path], [.toDialect, .out]⟩),
    ("import", ⟨[.path], [.fromDialect, .out]⟩),
    ("migrate", ⟨[.path], [.fromVersion, .toVersion]⟩)]

/-! ## Scanning -/

/-- What has been read of the arguments on one side of the command's name. -/
structure Scanned where
  /-- Options with their values; the value of one that has none is empty. -/
  options : List (String × String) := []
  positionals : List String := []

/-- Where the scanning of arguments ended. -/
inductive Scan where
  /-- An argument is not allowed. -/
  | refused
  /-- Help was asked for. -/
  | help
  /-- Everything was read up to the given arguments. -/
  | done (s : Scanned) (rest : List String)

/-- Takes in an option with its value, unless the value does not fit or the option has been there.
-/
def Scanned.give (s : Scanned) (o : Switch) (value : String) : Option Scanned :=
  if (s.options.lookup o.name).isSome || !o.value.all (·.admits value) then none
  else some { s with options := s.options ++ [(o.name, value)] }

/-- Takes in the next positional, unless it does not fit or is one too many. -/
def Scanned.place (s : Scanned) (forms : List ValueForm) (value : String) : Option Scanned :=
  if forms[s.positionals.length]?.any (·.admits value) then
    some { s with positionals := s.positionals ++ [value] }
  else none

/-- Whether an argument is an option by its looks. -/
def isOption (arg : String) : Bool :=
  arg.startsWith "-" && arg != "-"

/-- The value that stands in the same argument as the letter of its option. -/
def attached (cs : List Char) : String :=
  match cs with
  | '=' :: cs => String.ofList cs
  | cs => String.ofList cs

/-- What an argument with options gives. -/
inductive Step where
  | refused
  | help
  | done (s : Scanned)
  /-- The value of the option is the next argument. -/
  | awaits (o : Switch)

/-- Reads the letters of an argument, each of them an option; the first that has a value takes
what follows. -/
def letters (switches : List Switch) (s : Scanned) : List Char → Step
  | [] => .done s
  | c :: cs =>
    match switches.find? (·.letter == some c) with
    | none => .refused
    | some o =>
      if o.value.isSome then
        if cs.isEmpty then .awaits o
        else ((s.give o (attached cs)).map Step.done).getD .refused
      else if o = .help then .help
      else
        match s.give o "" with
        | none => .refused
        | some s => letters switches s cs

/-- Reads an argument that is a name behind two hyphens, with the value behind `=`. -/
def long (switches : List Switch) (s : Scanned) (cs : List Char) : Step :=
  let name := String.ofList (cs.takeWhile (· != '='))
  match switches.find? (·.name == name), cs.dropWhile (· != '=') with
  | none, _ => .refused
  | some o, [] =>
    if o.value.isSome then .awaits o
    else if o = .help then .help
    else ((s.give o "").map Step.done).getD .refused
  | some o, _ :: value =>
    if o.value.isSome then ((s.give o (String.ofList value)).map Step.done).getD .refused
    else .refused

/-- Reads an argument that is an option by its looks. -/
def step (switches : List Switch) (s : Scanned) (arg : String) : Step :=
  match arg.toList with
  | '-' :: '-' :: cs => long switches s cs
  | '-' :: cs => letters switches s cs
  | _ => .refused

/-- Reads positionals only. -/
def scanPositionals (forms : List ValueForm) (s : Scanned) (args : List String) : Scan :=
  match args.foldlM (fun s arg => s.place forms arg) s with
  | some s => .done s []
  | none => .refused

/-- Reads arguments; where no positionals are allowed, up to the first of them. -/
def scan (switches : List Switch) (forms : List ValueForm) (s : Scanned) : List String → Scan
  | [] => .done s []
  | arg :: rest =>
    if arg = "--" then scanPositionals forms s rest
    else if isOption arg then
      match step switches s arg with
      | .refused => .refused
      | .help => .help
      | .done s => scan switches forms s rest
      | .awaits o =>
        match rest with
        | [] => .refused
        | value :: rest =>
          if isOption value then .refused
          else
            match s.give o value with
            | none => .refused
            | some s => scan switches forms s rest
    else if forms.isEmpty then .done s (arg :: rest)
    else
      match s.place forms arg with
      | none => .refused
      | some s => scan switches forms s rest

/-! ## Requests -/

/-- The value of an option. -/
def Scanned.value? (s : Scanned) (o : Switch) : Option String :=
  s.options.lookup o.name

def Scanned.dialect? (s : Scanned) (o : Switch) : Option Dialect :=
  (s.value? o).bind fun word => Dialect.words.lookup word

def Scanned.number? (s : Scanned) (o : Switch) : Option Nat :=
  (s.value? o).bind Arguments.number?

/-- The task of the command `word` with what was read for it, unless something is missing. -/
def task? (word : String) (s : Scanned) : Option Task := do
  let name := s.positionals[1]?
  match word with
  | "validate" => return .validate
  | "show" => return .onDocument (.describe (← name))
  | "tree" => return .onDocument (.tree name)
  | "expand" => return .onDocument (.expand name)
  | "format" => return .onDocument (.format (s.value? .inPlace).isSome)
  | "export" => return .onDocument (.toDeck (← s.dialect? .toDialect) (s.value? .out))
  | "import" => return .fromDeck (s.dialect? .fromDialect) (s.value? .out)
  | "migrate" => return .migrate (s.number? .fromVersion) (s.number? .toVersion)
  | _ => none

/-- The command `word` with what was read for it, unless something is missing. -/
def command? (word : String) (s : Scanned) : Option Command := do
  return { file := ← s.positionals[0]?, task := ← task? word s }

end Arguments

open Arguments

/-- What arguments ask for. -/
inductive Request where
  /-- The arguments are not understood. -/
  | refused
  | help
  | run (i : Invocation)
  deriving DecidableEq, Repr

namespace Request

/-- The level at which notes are shown if none is asked for. -/
def standardLogLevel : String := "warn"

/-- The invocation of a command. A shared option behind the name of the command counts before one
in front of it. -/
def ofScanned (word : String) (before behind : Scanned) : Request :=
  let shared (o : Switch) : Option String := behind.value? o <|> before.value? o
  match command? word behind with
  | none => .refused
  | some command =>
    .run {
      command
      settings := shared .settings
      logLevel := (shared .logLevel).getD standardLogLevel }

/-- What arguments behind the name of a command ask for. -/
def ofCommand (word : String) (before : Scanned) (args : List String) : Request :=
  if word = Switch.help.name then
    match args with
    | [] => .help
    | [topic] =>
      if topic = word || (signatures.lookup topic).isSome then .help else .refused
    | _ => .refused
  else
    match signatures.lookup word with
    | none => .refused
    | some sig =>
      match scan (Switch.shared ++ sig.switches) sig.positionals {} args with
      | .refused => .refused
      | .help => .help
      | .done behind _ => ofScanned word before behind

/-- What the arguments of a run ask for. -/
def ofArguments (args : List String) : Request :=
  match scan Switch.shared [] {} args with
  | .refused => .refused
  | .help => .help
  | .done _ [] => .refused
  | .done before (word :: args) => ofCommand word before args

end Request

end Beamline

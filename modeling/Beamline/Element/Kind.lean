import Beamline.Json.Basic

/-!
# Element kinds and their parameters

The catalogue of what an element may be: the eleven kinds, the parameters each of them takes in the
order in which they are written, and the form of every parameter.

* `Kind`, `Kind.tag`, `Kind.ofTag?` : the kinds and their names in documents;
* `Parameter`, `Parameter.name`, `Parameter.form` : the parameters;
* `Kind.slots` : the parameters of a kind, each required or optional.
-/

namespace Beamline

inductive Kind where
  | drift
  | dipole
  | quadrupole
  | sextupole
  | octupole
  | solenoid
  | cavity
  | kicker
  | multipole
  | monitor
  | marker
  deriving DecidableEq, Repr

namespace Kind

/-- All kinds in the order of the catalogue. -/
def all : List Kind :=
  [drift, dipole, quadrupole, sextupole, octupole, solenoid, cavity, kicker, multipole, monitor,
    marker]

/-- The name of a kind in documents. -/
def tag : Kind → String
  | drift => "drift"
  | dipole => "dipole"
  | quadrupole => "quadrupole"
  | sextupole => "sextupole"
  | octupole => "octupole"
  | solenoid => "solenoid"
  | cavity => "cavity"
  | kicker => "kicker"
  | multipole => "multipole"
  | monitor => "monitor"
  | marker => "marker"

def ofTag? (tag : String) : Option Kind :=
  all.find? (·.tag == tag)

theorem mem_all (k : Kind) : k ∈ all := by
  cases k <;> decide

end Kind

/-- The form of a parameter's value. -/
inductive Form where
  | number
  | text
  | numbers
  deriving DecidableEq, Repr

namespace Form

def describe : Form → String
  | number => "a number"
  | text => "a string"
  | numbers => "an array of numbers"

/-- Whether a JSON value has the form. -/
def fits (form : Form) (v : Json) : Bool :=
  match form with
  | number => v.isNumber
  | text => v.isText
  | numbers => v.items?.any (·.all Json.isNumber)

end Form

inductive Parameter where
  | length
  | angle
  | e1
  | e2
  | k1
  | k2
  | k3
  | ks
  | voltage
  | frequency
  | phase
  | hkick
  | vkick
  | knl
  | ksl
  | info
  deriving DecidableEq, Repr

namespace Parameter

/-- The key of a parameter in documents. -/
def name : Parameter → String
  | length => "length"
  | angle => "angle"
  | e1 => "e1"
  | e2 => "e2"
  | k1 => "k1"
  | k2 => "k2"
  | k3 => "k3"
  | ks => "ks"
  | voltage => "voltage"
  | frequency => "frequency"
  | phase => "phase"
  | hkick => "hkick"
  | vkick => "vkick"
  | knl => "knl"
  | ksl => "ksl"
  | info => "info"

def form : Parameter → Form
  | knl | ksl => .numbers
  | info => .text
  | _ => .number

/-- Whether the value may not lie below zero. -/
def nonNegative : Parameter → Bool
  | length => true
  | _ => false

end Parameter

/-- Why a parameter does not fit the element that is made from it. -/
inductive Parameter.Flaw where
  | missing (p : Parameter)
  | notNumber (p : Parameter)
  | notArray (p : Parameter)
  | notNumbers (p : Parameter)
  deriving DecidableEq, Repr

def Parameter.Flaw.message : Parameter.Flaw → String
  | missing p => "missing parameter '" ++ p.name ++ "'"
  | notNumber p => "parameter '" ++ p.name ++ "' is not a number"
  | notArray p => "parameter '" ++ p.name ++ "' is not an array"
  | notNumbers p => "parameter '" ++ p.name ++ "' contains a non-number"

/-- A parameter as one kind takes it. -/
structure Slot where
  parameter : Parameter
  required : Bool
  deriving DecidableEq, Repr

namespace Kind

open Parameter in
/-- The parameters of a kind in the order in which they are written; a remark comes last. -/
def slots (k : Kind) : List Slot :=
  let own : List Slot :=
    match k with
    | drift => [⟨length, true⟩]
    | dipole => [⟨length, true⟩, ⟨angle, true⟩, ⟨e1, false⟩, ⟨e2, false⟩, ⟨k1, false⟩]
    | quadrupole => [⟨length, true⟩, ⟨k1, false⟩]
    | sextupole => [⟨length, true⟩, ⟨k2, false⟩]
    | octupole => [⟨length, true⟩, ⟨k3, false⟩]
    | solenoid => [⟨length, true⟩, ⟨ks, false⟩]
    | cavity => [⟨length, true⟩, ⟨voltage, false⟩, ⟨frequency, false⟩, ⟨phase, false⟩]
    | kicker => [⟨length, false⟩, ⟨hkick, false⟩, ⟨vkick, false⟩]
    | multipole => [⟨knl, true⟩, ⟨ksl, false⟩]
    | monitor => [⟨length, false⟩]
    | marker => []
  own ++ [⟨info, false⟩]

/-- The parameters that an element of the kind cannot do without. -/
def required (k : Kind) : List Parameter :=
  (k.slots.filter (·.required)).map (·.parameter)

/-- The parameter of a kind that is written `name`. -/
def parameter? (k : Kind) (name : String) : Option Parameter :=
  (k.slots.map (·.parameter)).find? (·.name == name)

end Kind

end Beamline

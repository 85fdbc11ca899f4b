import Beamline.Element.Kind

/-!
# Elements

* `Quantity` : the value of a numeric parameter, one number or a list;
* `Body` : what an element is, its kind with the parameters of that kind, optional ones absent as
  `none`;
* `Body.fields` : the parameters that are present, in the order of the catalogue;
* `Body.ofSource`, `Body.ofFields?` : the body with given parameter values;
* `Element` : a body with a name and a remark.
-/

namespace Beamline

/-- The value of a numeric parameter. -/
inductive Quantity where
  | number (x : Float)
  | numbers (xs : List Float)
  deriving DecidableEq

namespace Quantity

def toJson : Quantity → Json
  | number x => .ofFloat x
  | numbers xs => .arr (xs.map .ofFloat)

/-- Equality of numbers, so that the two zeros are equal. -/
def agrees : Quantity → Quantity → Bool
  | number x, number y => x == y
  | numbers xs, numbers ys => xs == ys
  | _, _ => false

end Quantity

/-- An element's kind with its parameters. -/
inductive Body where
  | drift (length : Float)
  | dipole (length angle : Float) (e1 e2 k1 : Option Float)
  | quadrupole (length : Float) (k1 : Option Float)
  | sextupole (length : Float) (k2 : Option Float)
  | octupole (length : Float) (k3 : Option Float)
  | solenoid (length : Float) (ks : Option Float)
  | cavity (length : Float) (voltage frequency phase : Option Float)
  | kicker (length hkick vkick : Option Float)
  | multipole (knl : List Float) (ksl : Option (List Float))
  | monitor (length : Option Float)
  | marker
  deriving DecidableEq

namespace Body

def kind : Body → Kind
  | drift .. => .drift
  | dipole .. => .dipole
  | quadrupole .. => .quadrupole
  | sextupole .. => .sextupole
  | octupole .. => .octupole
  | solenoid .. => .solenoid
  | cavity .. => .cavity
  | kicker .. => .kicker
  | multipole .. => .multipole
  | monitor .. => .monitor
  | marker => .marker

/-- The physical length in metres; thin elements have none. -/
def length : Body → Float
  | drift length | dipole length .. | quadrupole length _ | sextupole length _
  | octupole length _ | solenoid length _ | cavity length .. => length
  | kicker length .. | monitor length => length.getD 0
  | multipole .. | marker => 0

/-- The numeric parameters of the body, present or not, in the order of the catalogue. -/
def settings : Body → List (Parameter × Option Quantity)
  | drift l => [(.length, some (.number l))]
  | dipole l angle e1 e2 k1 =>
    [(.length, some (.number l)), (.angle, some (.number angle)), (.e1, e1.map .number),
      (.e2, e2.map .number), (.k1, k1.map .number)]
  | quadrupole l k1 => [(.length, some (.number l)), (.k1, k1.map .number)]
  | sextupole l k2 => [(.length, some (.number l)), (.k2, k2.map .number)]
  | octupole l k3 => [(.length, some (.number l)), (.k3, k3.map .number)]
  | solenoid l ks => [(.length, some (.number l)), (.ks, ks.map .number)]
  | cavity l voltage frequency phase =>
    [(.length, some (.number l)), (.voltage, voltage.map .number),
      (.frequency, frequency.map .number), (.phase, phase.map .number)]
  | kicker l hkick vkick =>
    [(.length, l.map .number), (.hkick, hkick.map .number), (.vkick, vkick.map .number)]
  | multipole knl ksl => [(.knl, some (.numbers knl)), (.ksl, ksl.map .numbers)]
  | monitor l => [(.length, l.map .number)]
  | marker => []

/-- The numeric parameters that are present, in the order of the catalogue. -/
def fields (b : Body) : List (Parameter × Quantity) :=
  b.settings.filterMap fun s => s.2.map (s.1, ·)

/-- Where the parameters of a body come from. A parameter that is not there has the value `none`,
one that does not fit fails. -/
structure Source where
  number? : Parameter → Except Parameter.Flaw (Option Float)
  numbers? : Parameter → Except Parameter.Flaw (Option (List Float))

namespace Source

/-- The value of a required number. -/
def number (s : Source) (p : Parameter) : Except Parameter.Flaw Float := do
  match ← s.number? p with
  | some x => return x
  | none => throw (.missing p)

/-- The value of a required list of numbers. -/
def numbers (s : Source) (p : Parameter) : Except Parameter.Flaw (List Float) := do
  match ← s.numbers? p with
  | some xs => return xs
  | none => throw (.missing p)

end Source

/-- The body of kind `k` with the parameters of a source. -/
def ofSource (k : Kind) (s : Source) : Except Parameter.Flaw Body := do
  match k with
  | .drift => return drift (← s.number .length)
  | .dipole =>
    return dipole (← s.number .length) (← s.number .angle) (← s.number? .e1) (← s.number? .e2)
      (← s.number? .k1)
  | .quadrupole => return quadrupole (← s.number .length) (← s.number? .k1)
  | .sextupole => return sextupole (← s.number .length) (← s.number? .k2)
  | .octupole => return octupole (← s.number .length) (← s.number? .k3)
  | .solenoid => return solenoid (← s.number .length) (← s.number? .ks)
  | .cavity =>
    return cavity (← s.number .length) (← s.number? .voltage) (← s.number? .frequency)
      (← s.number? .phase)
  | .kicker => return kicker (← s.number? .length) (← s.number? .hkick) (← s.number? .vkick)
  | .multipole => return multipole (← s.numbers .knl) (← s.numbers? .ksl)
  | .monitor => return monitor (← s.number? .length)
  | .marker => return marker

/-- Parameters that are given as quantities. -/
def Source.ofQuantities (get : Parameter → Option Quantity) : Source where
  number? p :=
    match get p with
    | none => .ok none
    | some (.number x) => .ok (some x)
    | some (.numbers _) => .error (.notNumber p)
  numbers? p :=
    match get p with
    | none => .ok none
    | some (.numbers xs) => .ok (some xs)
    | some (.number _) => .error (.notArray p)

/-- The body of kind `k` whose parameters have the values `get` gives, unless one that is required
has none or one does not fit. -/
def ofFields? (k : Kind) (get : Parameter → Option Quantity) : Option Body :=
  (ofSource k (.ofQuantities get)).toOption

/-- Equality of kinds and parameter values, the values as numbers. -/
def agrees (a b : Body) : Bool :=
  a.kind == b.kind && a.fields.length == b.fields.length &&
    (a.fields.zip b.fields).all fun (x, y) => x.1 == y.1 && x.2.agrees y.2

/-- A body is given by its kind and its fields. -/
theorem ofSource_lookup_fields (b : Body) :
    ofSource b.kind (.ofQuantities fun p => b.fields.lookup p) = .ok b := by
  cases b with
  | drift l => rfl
  | dipole l angle e1 e2 k1 => cases e1 <;> cases e2 <;> cases k1 <;> rfl
  | quadrupole l k1 => cases k1 <;> rfl
  | sextupole l k2 => cases k2 <;> rfl
  | octupole l k3 => cases k3 <;> rfl
  | solenoid l ks => cases ks <;> rfl
  | cavity l voltage frequency phase => cases voltage <;> cases frequency <;> cases phase <;> rfl
  | kicker l hkick vkick => cases l <;> cases hkick <;> cases vkick <;> rfl
  | multipole knl ksl => cases ksl <;> rfl
  | monitor l => cases l <;> rfl
  | marker => rfl

end Body

/-- A named element. -/
structure Element where
  name : String
  info : Option String
  body : Body
  deriving DecidableEq

namespace Element

def kind (e : Element) : Kind := e.body.kind

def length (e : Element) : Float := e.body.length

/-- Equality of names, remarks, kinds and parameter values, the values as numbers. -/
def agrees (a b : Element) : Bool :=
  a.name == b.name && a.info == b.info && a.body.agrees b.body

end Element

end Beamline

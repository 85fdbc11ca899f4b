import Beamline.Element.Kind

/-!
# Dialects

The two languages of lattice files that are read and written, and their tables of words. elegant
ends a statement with its line, MAD-X with a semicolon; each has its own keywords for kinds and
parameters.

* `Dialect.keyword`, `Dialect.kind?` : the word for a kind, the kind that a word names;
* `Dialect.attribute?`, `Dialect.parameter?` : the word for a parameter, the parameter of a kind
  that a word names.
-/

namespace Beamline

inductive Dialect where
  | elegant
  | madx
  deriving DecidableEq, Repr

namespace Dialect

def name : Dialect → String
  | elegant => "elegant"
  | madx => "MAD-X"

/-- What a statement ends with, besides its line. -/
def terminator : Dialect → String
  | elegant => ""
  | madx => ";"

/-- Whether a quoted value is an expression in postfix form. -/
def quotesExpressions : Dialect → Bool
  | elegant => true
  | madx => false

/-! ## Kinds -/

/-- The keyword that a kind is written with. -/
def keyword : Dialect → Kind → String
  | elegant, .drift => "DRIF"
  | elegant, .dipole => "CSBEND"
  | elegant, .quadrupole => "KQUAD"
  | elegant, .sextupole => "KSEXT"
  | elegant, .octupole => "KOCT"
  | elegant, .solenoid => "SOLE"
  | elegant, .cavity => "RFCA"
  | elegant, .kicker => "KICKER"
  | elegant, .multipole => "MULT"
  | elegant, .monitor => "MONI"
  | elegant, .marker => "MARK"
  | madx, .drift => "DRIFT"
  | madx, .dipole => "SBEND"
  | madx, .quadrupole => "QUADRUPOLE"
  | madx, .sextupole => "SEXTUPOLE"
  | madx, .octupole => "OCTUPOLE"
  | madx, .solenoid => "SOLENOID"
  | madx, .cavity => "RFCAVITY"
  | madx, .kicker => "KICKER"
  | madx, .multipole => "MULTIPOLE"
  | madx, .monitor => "MONITOR"
  | madx, .marker => "MARKER"

/-- Further keywords that are read. -/
def aliases : Dialect → List (String × Kind)
  | elegant =>
    [("DRIFT", .drift), ("EDRIFT", .drift), ("SBEN", .dipole), ("SBEND", .dipole),
      ("CSRCSBEND", .dipole), ("QUAD", .quadrupole), ("SEXT", .sextupole), ("RFCW", .cavity),
      ("HKICK", .kicker), ("VKICK", .kicker), ("HMON", .monitor), ("VMON", .monitor),
      ("WATCH", .marker)]
  | madx =>
    [("RBEND", .dipole), ("HKICKER", .kicker), ("VKICKER", .kicker), ("TKICKER", .kicker),
      ("HMONITOR", .monitor), ("VMONITOR", .monitor)]

/-- The kind that a keyword names. -/
def kind? (d : Dialect) (word : String) : Option Kind :=
  (Kind.all.find? fun k => d.keyword k == word) <|> d.aliases.lookup word

/-! ## Parameters -/

/-- The attribute that a parameter is written with. -/
def attribute? : Dialect → Parameter → Option String
  | _, .length => some "L"
  | _, .angle => some "ANGLE"
  | _, .e1 => some "E1"
  | _, .e2 => some "E2"
  | _, .k1 => some "K1"
  | _, .k2 => some "K2"
  | _, .k3 => some "K3"
  | _, .ks => some "KS"
  | _, .voltage => some "VOLT"
  | _, .frequency => some "FREQ"
  | elegant, .phase => some "PHASE"
  | madx, .phase => some "LAG"
  | _, .hkick => some "HKICK"
  | _, .vkick => some "VKICK"
  | _, .knl => some "KNL"
  | elegant, .ksl => none
  | madx, .ksl => some "KSL"
  | _, .info => none

/-- The parameter of kind `k` that an attribute names. -/
def parameter? (d : Dialect) (k : Kind) (word : String) : Option Parameter :=
  (k.slots.map (·.parameter)).find? fun p => d.attribute? p == some word

end Dialect

end Beamline

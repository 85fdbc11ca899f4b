import Beamline.Text.Blank
import Beamline.Decimal.Basic

/-!
# Format versions

A version is written `MAJOR.MINOR`. A document can be read if its major version is the current one;
a later minor version may have added keys.
-/

namespace Beamline

structure Version where
  major : Nat
  minor : Nat
  deriving DecidableEq, Repr

namespace Version

/-- The version that is read and written here. -/
def current : Version := ⟨3, 0⟩

/-- A number of a version, below `2 ^ 32`. -/
def number? (cs : List Char) : Option Nat :=
  Decimal.natBelow? 0x100000000 cs

/-- Reads a version; blanks around it do not count. -/
def parse? (text : String) : Option Version :=
  let cs := Text.trim text.toList
  match cs.dropWhile (· != '.') with
  | _ :: minor => do
    return ⟨← number? (cs.takeWhile (· != '.')), ← number? minor⟩
  | [] => none

def text (v : Version) : String :=
  String.ofList (Decimal.digitsOfNat v.major ++ '.' :: Decimal.digitsOfNat v.minor)

/-- Whether documents of this version can be read. -/
def readable (v : Version) : Bool :=
  v.major == current.major

/-- Whether documents of this version can be read but may hold keys unknown here. -/
def forward (v : Version) : Bool :=
  v.readable && current.minor < v.minor

end Version

end Beamline

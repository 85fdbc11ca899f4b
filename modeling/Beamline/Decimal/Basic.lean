/-!
# Decimal numbers

A decimal is a whole number of units of a power of ten. `Decimal.toFloat` is the nearest binary64
value, a tie going to the even mantissa.
-/

namespace Beamline

/-- The number `digits * 10 ^ exponent`. -/
structure Decimal where
  digits : Nat
  exponent : Int
  deriving DecidableEq, Repr

namespace Decimal

/-- The binary64 value nearest to a decimal, ties to even. -/
def toFloat (d : Decimal) : Float :=
  .ofModel (.ofScientific d.digits d.exponent)

/-- The number that a list of decimal digits spells. -/
def natOfDigits (cs : List Char) : Nat :=
  cs.foldl (fun n c => 10 * n + (c.toNat - '0'.toNat)) 0

/-- The number below `bound` that a text spells in decimal digits. -/
def natBelow? (bound : Nat) (cs : List Char) : Option Nat :=
  let n := natOfDigits cs
  if cs.isEmpty || !cs.all Char.isDigit || bound ≤ n then none else some n

/-- The decimal digits of a number, without leading zeros. -/
def digitsOfNat (n : Nat) : List Char :=
  Nat.toDigits 10 n

/-- The decimal whose digits are `whole` before the point and `fraction` behind it, times
`10 ^ shift`. -/
def ofParts (whole fraction : List Char) (shift : Int) : Decimal :=
  ⟨natOfDigits (whole ++ fraction), shift - fraction.length⟩

end Decimal

end Beamline

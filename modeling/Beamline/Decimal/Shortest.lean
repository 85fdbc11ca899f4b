import Beamline.Decimal.Basic

/-!
# The shortest decimal of a float

`Decimal.shortest` picks, among the decimals that read back as a given positive float, one with the
fewest digits, and of those the nearest. The search runs over the grids of 1, 2, … 17 significant
digits and tests the two neighbours of the exact value on each; a decimal is taken only if it reads
back, so whatever the search returns names the float it was made from.
-/

namespace Beamline

/-- Which of two equally near decimals is taken: the one with the even last digit, or the larger. -/
inductive Tie where
  | toEven
  | upward
  deriving DecidableEq, Repr

namespace Decimal

/-- The number `mantissa * 2 ^ exponent` as a fraction. -/
def fraction (mantissa : Nat) (exponent : Int) : Nat × Nat :=
  if 0 ≤ exponent then (mantissa * Nat.pow 2 exponent.toNat, 1)
  else (mantissa, Nat.pow 2 (-exponent).toNat)

/-- The exponent of ten of the leading digit of `num / den`. -/
def leading (num den : Nat) : Int :=
  let guess : Int := (digitsOfNat num).length - (digitsOfNat den).length
  let reached :=
    if 0 ≤ guess then den * Nat.pow 10 guess.toNat ≤ num
    else den ≤ num * Nat.pow 10 (-guess).toNat
  if reached then guess else guess - 1

/-- The number of whole units of `10 ^ unit` in `num / den`, and how the rest compares with half a
unit. -/
def onGrid (num den : Nat) (unit : Int) : Nat × Ordering :=
  let num := if 0 ≤ unit then num else num * Nat.pow 10 (-unit).toNat
  let den := if 0 ≤ unit then den * Nat.pow 10 unit.toNat else den
  (num / den, compare (2 * (num % den)) den)

/-- The decimal on the grid of `10 ^ unit` that reads back as `x`, which is `num / den`: the nearer
one if both neighbours of `x` do. -/
def hit? (tie : Tie) (x : Float) (num den : Nat) (unit : Int) : Option Decimal :=
  let (low, rest) := onGrid num den unit
  let below : Decimal := ⟨low, unit⟩
  let above : Decimal := ⟨low + 1, unit⟩
  let nearer :=
    match rest, tie with
    | .lt, _ => below
    | .gt, _ => above
    | .eq, .upward => above
    | .eq, .toEven => if low % 2 = 0 then below else above
  if below.toFloat = x then
    if above.toFloat = x then some nearer else some below
  else if above.toFloat = x then some above
  else none

/-- All digits of `mantissa * 2 ^ exponent`. -/
def exact (mantissa : Nat) (exponent : Int) : Decimal :=
  if 0 ≤ exponent then ⟨mantissa * Nat.pow 2 exponent.toNat, 0⟩
  else ⟨mantissa * Nat.pow 5 (-exponent).toNat, exponent⟩

/-- The most significant digits that a binary64 value can need. -/
def maxDigits : Nat := 17

/-- The shortest decimal that reads back as `x = mantissa * 2 ^ exponent`. -/
def shortest (tie : Tie) (x : Float) (mantissa : Nat) (exponent : Int) : Decimal :=
  let (num, den) := fraction mantissa exponent
  let lead := leading num den
  let found := (List.range maxDigits).findSome? fun (n : Nat) => hit? tie x num den (lead - n)
  found.getD (exact mantissa exponent)

end Decimal

end Beamline

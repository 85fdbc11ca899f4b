import Beamline.Decimal.Shortest

/-!
# Written forms of a float

A `Style` is the list of choices that a written form makes: how ties between shortest digits go,
which numbers are written with all their places and which with an exponent, and whether a whole
number shows a fraction.

* `Style.plain` : never an exponent, no fraction on whole numbers (`0.0000001`, `12`);
* `Style.json` : an exponent outside `10 ^ -5 … 10 ^ 15`, always a fraction inside (`1.0`, `1e-6`).
-/

namespace Beamline.Decimal

/-- The choices of a written form. -/
structure Style where
  tie : Tie
  /-- Whether a number is written with all its places, from the exponent of its leading digit. -/
  positional : Int → Bool
  /-- Written behind a whole number in positional form. -/
  whole : List Char

/-- No exponent ever; `12`, `0.5`, `1000000000000000000000`. -/
def Style.plain : Style where
  tie := .upward
  positional _ := true
  whole := []

/-- The number form of encoded documents; `12.0`, `0.5`, `1e+21`, `1e-6`. -/
def Style.json : Style where
  tie := .toEven
  positional lead := -5 ≤ lead && lead ≤ 15
  whole := ['.', '0']

/-- `n` zeros. -/
def zeros (n : Nat) : List Char :=
  List.replicate n '0'

/-- The digits of a number without the zeros they end in. -/
def significant (n : Nat) : List Char :=
  ((digitsOfNat n).reverse.dropWhile (· == '0')).reverse

/-- The digits `ds` with the point behind the first `point` places. -/
def positionalText (ds : List Char) (point : Int) (whole : List Char) : List Char :=
  if point ≤ 0 then '0' :: '.' :: zeros (-point).toNat ++ ds
  else if ds.length ≤ point.toNat then ds ++ zeros (point.toNat - ds.length) ++ whole
  else ds.take point.toNat ++ '.' :: ds.drop point.toNat

/-- The digits `ds` with the point behind the first and the exponent `lead`. -/
def scientificText (ds : List Char) (lead : Int) : List Char :=
  let mantissa :=
    match ds with
    | [] => []
    | d :: [] => [d]
    | d :: rest => d :: '.' :: rest
  let sign := if lead < 0 then '-' else '+'
  mantissa ++ 'e' :: sign :: digitsOfNat lead.natAbs

/-- The written form of a positive decimal. -/
def Style.writeDecimal (s : Style) (d : Decimal) : List Char :=
  let lead : Int := d.exponent + (digitsOfNat d.digits).length - 1
  let ds := significant d.digits
  if s.positional lead then positionalText ds (lead + 1) s.whole else scientificText ds lead

open Float.Model in
/-- The written form of a float. -/
def Style.write (s : Style) (x : Float) : List Char :=
  let signed (sign : UnpackedFloat.Sign) (cs : List Char) :=
    match sign with
    | .negative => '-' :: cs
    | .positive => cs
  match x.toModel.unpack with
  | .notANumber => ['N', 'a', 'N']
  | .infinity sign => signed sign ['i', 'n', 'f']
  | .zero sign => signed sign ('0' :: s.whole)
  | .finite sign mantissa exponent _ =>
    signed sign (s.writeDecimal (shortest s.tie x.abs mantissa exponent))

end Beamline.Decimal

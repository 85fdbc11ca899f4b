import Beamline.Decimal.Basic
import Beamline.Text.Scanner

/-!
# The words of a clause

* `Word.name` : a name, in upper case;
* `Word.magnitude` : a number without a sign;
* `Word.quoted` : a text between quotation marks.
-/

namespace Beamline.Deck.Word

open Text Text.Scanner

/-- The characters that a name can start with. -/
def isNameStart (c : Char) : Bool :=
  c.isAlpha || c == '_'

/-- The characters that a name can go on with. -/
def isNameRest (c : Char) : Bool :=
  c.isAlphanum || c == '_' || c == '.' || c == '$'

/-- A name, in upper case. -/
def name : Scanner String
  | [] => none
  | c :: cs =>
    if isNameStart c then
      some (String.ofList (upper (c :: cs.takeWhile isNameRest)), cs.dropWhile isNameRest)
    else none

/-- The digits of a number before and behind its point; one of the two may be missing. -/
def mantissa : Scanner (List Char × List Char) := fun cs =>
  match digits cs with
  | some (whole, '.' :: rest) =>
    some ((whole, rest.takeWhile Char.isDigit), rest.dropWhile Char.isDigit)
  | some (whole, rest) => some ((whole, []), rest)
  | none =>
    match cs with
    | '.' :: rest => (digits rest).map fun (fraction, rest) => (([], fraction), rest)
    | _ => none

/-- The exponent of a number with its mark. -/
def exponent : Scanner Int
  | [] => none
  | c :: cs =>
    if c = 'e' || c = 'E' then
      match cs with
      | '-' :: cs => (digits cs).map fun (ds, cs) => (-(Decimal.natOfDigits ds : Int), cs)
      | '+' :: cs => (digits cs).map fun (ds, cs) => (Decimal.natOfDigits ds, cs)
      | cs => (digits cs).map fun (ds, cs) => (Decimal.natOfDigits ds, cs)
    else none

/-- A number without a sign. -/
def magnitude : Scanner Float := fun cs => do
  let ((whole, fraction), cs) ← mantissa cs
  let (e, cs) := opt exponent cs
  return ((Decimal.ofParts whole fraction (e.getD 0)).toFloat, cs)

/-- A text between two quotation marks `q`. -/
def quotedBy (q : Char) : Scanner String
  | [] => none
  | c :: cs =>
    if c = q then
      match cs.dropWhile (· != q) with
      | [] => none
      | _ :: rest => some (String.ofList (cs.takeWhile (· != q)), rest)
    else none

/-- A text between double or single quotation marks. -/
def quoted : Scanner String :=
  orElse (quotedBy '"') (quotedBy '\'')

end Beamline.Deck.Word

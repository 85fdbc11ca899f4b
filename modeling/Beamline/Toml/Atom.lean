import Beamline.Toml.Tree
import Beamline.Toml.Word

/-!
# Numbers, truth values and dates of TOML

* `isInteger`, `isFloat` : the written forms of numbers;
* `date` : the scanner of dates and times;
* `Toml.atom` : the scanner of all of them.
-/

namespace Beamline.Toml

open Text Text.Scanner

/-! ## Numbers -/

/-- Whether underscores stand only between digits, and there is a digit. -/
def wellSpaced (isDigit : Char → Bool) (cs : List Char) : Bool :=
  match cs with
  | [] => false
  | c :: rest =>
    isDigit c && (cs.zip rest).all (fun (a, b) =>
      (isDigit b && (isDigit a || a == '_')) || (b == '_' && isDigit a)) &&
      cs.getLast?.any isDigit

/-- A whole decimal number without a sign. -/
def isDecimal (cs : List Char) : Bool :=
  wellSpaced Char.isDigit cs && (cs.length == 1 || cs.head? != some '0')

/-- A text without the sign it starts with. -/
def unsigned : List Char → List Char
  | '+' :: cs | '-' :: cs => cs
  | cs => cs

/-- A whole number. -/
def isInteger (cs : List Char) : Bool :=
  match cs with
  | '0' :: 'x' :: ds => wellSpaced (fun c => (hexDigit? c).isSome) ds
  | '0' :: 'o' :: ds => wellSpaced (fun c => '0' ≤ c && c ≤ '7') ds
  | '0' :: 'b' :: ds => wellSpaced (fun c => c == '0' || c == '1') ds
  | cs => isDecimal (unsigned cs)

/-- An exponent behind its mark. -/
def isExponent (cs : List Char) : Bool :=
  wellSpaced Char.isDigit (unsigned cs)

/-- A number with a fraction or an exponent, or one of the names `inf` and `nan`. -/
def isFloat (cs : List Char) : Bool :=
  let cs := unsigned cs
  let isMark (c : Char) : Bool := c == 'e' || c == 'E'
  let mantissa := cs.takeWhile fun c => !isMark c
  let exponent := cs.dropWhile fun c => !isMark c
  let whole := mantissa.takeWhile (· != '.')
  let fraction := mantissa.dropWhile (· != '.')
  cs = ['i', 'n', 'f'] || cs = ['n', 'a', 'n'] ||
    (isDecimal whole && (!fraction.isEmpty || !exponent.isEmpty) &&
      (fraction.isEmpty || wellSpaced Char.isDigit (fraction.drop 1)) &&
      (exponent.isEmpty || isExponent (exponent.drop 1)))

/-! ## Dates -/

/-- A number of `n` digits between two bounds. -/
def inRange (n low high : Nat) : Scanner Unit := fun cs =>
  let ds := cs.take n
  let v := Decimal.natOfDigits ds
  if ds.length = n ∧ ds.all Char.isDigit ∧ low ≤ v ∧ v ≤ high then some ((), cs.drop n) else none

/-- A year, a month and a day. -/
def day : Scanner Unit := fun cs => do
  let (_, cs) ← inRange 4 0 9999 cs
  let (_, cs) ← char '-' cs
  let (_, cs) ← inRange 2 1 12 cs
  let (_, cs) ← char '-' cs
  inRange 2 1 31 cs

/-- Fractions of a second. -/
def subseconds : Scanner Unit := fun cs => do
  let (_, cs) ← char '.' cs
  let (_, cs) ← digits cs
  return ((), cs)

/-- The seconds of a time with the colon before them. -/
def seconds : Scanner Unit := fun cs => do
  let (_, cs) ← char ':' cs
  let (_, cs) ← inRange 2 0 60 cs
  return ((), (opt subseconds cs).2)

/-- A time of day, with or without seconds. -/
def time : Scanner Unit := fun cs => do
  let (_, cs) ← inRange 2 0 23 cs
  let (_, cs) ← char ':' cs
  let (_, cs) ← inRange 2 0 59 cs
  return ((), (opt seconds cs).2)

/-- The distance from universal time. -/
def offset : Scanner Unit
  | 'Z' :: cs | 'z' :: cs => some ((), cs)
  | '+' :: cs | '-' :: cs => do
    let (_, cs) ← inRange 2 0 23 cs
    let (_, cs) ← char ':' cs
    inRange 2 0 59 cs
  | _ => none

/-- A time of day behind a day. -/
def timeOfDay : Scanner Unit
  | 'T' :: cs | 't' :: cs | ' ' :: cs => do
    let (_, cs) ← time cs
    return ((), (opt offset cs).2)
  | _ => none

/-- A date, a time, or both. -/
def date : Scanner Unit :=
  orElse (fun cs => (day cs).map fun (_, cs) => ((), (opt timeOfDay cs).2)) time

/-- A character of a number, a name or a date. -/
def isAtom (c : Char) : Bool :=
  c.isAlphanum || c == '_' || c == '-' || c == '+' || c == '.' || c == ':'

/-- A number, a truth value or a date. -/
def atom : Scanner Value := fun cs =>
  let word := cs.takeWhile isAtom
  let rest := cs.dropWhile isAtom
  if word = "true".toList then some (.boolean true, rest)
  else if word = "false".toList then some (.boolean false, rest)
  else if isInteger word then some (.integer (String.ofList word), rest)
  else if isFloat word then some (.float (String.ofList word), rest)
  else
    match date cs with
    | some (_, rest) => if rest.head?.any isAtom then none else some (.date, rest)
    | none => none

end Beamline.Toml

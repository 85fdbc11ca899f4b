import Beamline.Json.Basic
import Beamline.Json.Fault
import Beamline.Text.Hex

/-!
# Reading scalars

Every reader takes the text from where it stands and returns what it read with the text that is
left.

* `Json.word` : the rest of `null`, `true` or `false`;
* `Json.number` : a number, its sign already read;
* `Json.string` : a string, its opening quote already read.
-/

namespace Beamline.Json

open Text

/-- What was read and the text that is left. -/
abbrev Got (α : Type) := α × List Char

/-- What a reader returns: what it read, or where it stopped. -/
abbrev Outcome (α : Type) := Except Stop α

/-- Reads exactly the characters of `expected` and returns `v`. -/
def word (v : Json) : List Char → List Char → Outcome (Got Json)
  | [], cs => .ok (v, cs)
  | _ :: _, [] => .error (.before .endInValue [])
  | e :: expected, c :: cs =>
    if c = e then word v expected cs else .error ⟨.badWord, c :: cs, 1⟩

/-! ## Numbers -/

/-- The digits that `cs` starts with, and the rest. -/
def digits (cs : List Char) : List Char × List Char :=
  (cs.takeWhile Char.isDigit, cs.dropWhile Char.isDigit)

/-- The largest exponent that is taken at its word. -/
def maxExponent : Nat := 0x7fffffff

/-- The shortest prefix of `ds` above `maxExponent`, as the number of its digits. -/
def overflow? (ds : List Char) : Option Nat :=
  (List.range ds.length).findSome? fun n =>
    if maxExponent < Decimal.natOfDigits (ds.take (n + 1)) then some (n + 1) else none

/-- A float of the given sign, if it is finite. -/
def finiteNumber (negative : Bool) (d : Decimal) (rest : List Char) : Outcome (Got Json) :=
  let x := d.toFloat
  if x.isFinite then .ok (.num (.float (if negative then -x else x)), rest)
  else .error (.before .hugeNumber rest)

/-- Whether an exponent is negative, and the text behind its sign. -/
def exponentSign : List Char → Bool × List Char
  | '-' :: cs => (true, cs)
  | '+' :: cs => (false, cs)
  | cs => (false, cs)

/-- The exponent of a number, its mark already read. -/
def exponent (negative : Bool) (whole fraction cs : List Char) : Outcome (Got Json) :=
  let (down, cs) := exponentSign cs
  let (ds, rest) := digits cs
  if ds.isEmpty then
    match cs with
    | [] => .error (.before .endInValue [])
    | cs => .error (.next .badNumber cs)
  else
    match overflow? ds with
    | none =>
      let e := Decimal.natOfDigits ds
      finiteNumber negative (.ofParts whole fraction (if down then -e else e)) rest
    | some n =>
      if !down && (whole ++ fraction).any (· != '0') then
        .error (.before .hugeNumber (ds.drop n ++ rest))
      else .ok (.num (.float (if negative then -0.0 else 0.0)), rest)

/-- What follows the digits of a fraction. -/
def fractionTail (negative : Bool) (whole fraction : List Char) : List Char → Outcome (Got Json)
  | 'e' :: rest | 'E' :: rest => exponent negative whole fraction rest
  | rest => finiteNumber negative (.ofParts whole fraction 0) rest

/-- The fraction of a number, its point already read, and what follows. -/
def fractionPart (negative : Bool) (whole cs : List Char) : Outcome (Got Json) :=
  let (ds, rest) := digits cs
  if ds.isEmpty then
    match cs with
    | [] => .error (.before .endInValue [])
    | cs => .error (.next .badNumber cs)
  else fractionTail negative whole ds rest

/-- A number without fraction and exponent. It stays whole if it is a signed or an unsigned 64-bit
number; negative zero is a float. -/
def wholeNumber (negative : Bool) (whole rest : List Char) : Outcome (Got Json) :=
  let n := Decimal.natOfDigits whole
  if !negative && n < 0x10000000000000000 then .ok (.num (.whole n), rest)
  else if negative && 0 < n && n ≤ 0x8000000000000000 then .ok (.num (.whole (-n)), rest)
  else finiteNumber negative ⟨n, 0⟩ rest

/-- What follows the digits before the point. -/
def wholeTail (negative : Bool) (whole : List Char) : List Char → Outcome (Got Json)
  | '.' :: rest => fractionPart negative whole rest
  | 'e' :: rest | 'E' :: rest => exponent negative whole [] rest
  | rest => wholeNumber negative whole rest

/-- A number, its minus sign already read. A leading zero stands alone. -/
def number (negative : Bool) (cs : List Char) : Outcome (Got Json) :=
  let (ds, rest) := digits cs
  match ds, cs with
  | [], [] => .error (.before .endInValue [])
  | [], cs => .error (.next .badNumber cs)
  | '0' :: d :: ds, _ => .error (.next .badNumber (d :: ds ++ rest))
  | ds, _ => wholeTail negative ds rest

/-! ## Strings -/

/-- A 16-bit unit written with four hexadecimal digits. -/
def unit (cs : List Char) : Outcome (Got Nat) :=
  if byteCount (cs.take 4) < 4 then .error (.before .endInString [])
  else
    match cs with
    | a :: b :: c :: d :: rest =>
      match hexDigit? a, hexDigit? b, hexDigit? c, hexDigit? d with
      | some a, some b, some c, some d => .ok (((a * 16 + b) * 16 + c) * 16 + d, rest)
      | _, _, _, _ => .error ⟨.badEscape, cs, 4⟩
    | _ => .error ⟨.badEscape, cs, 4⟩

/-- The mark `c` of the second half of a surrogate pair. -/
def pairMark (c : Char) : List Char → Outcome (Got Unit)
  | [] => .error (.before .endInString [])
  | d :: cs => if d = c then .ok ((), cs) else .error ⟨.halfPair, d :: cs, 1⟩

/-- A character written as one or two 16-bit units, `\u` already read. -/
def unitEscape (cs : List Char) : Outcome (Got Char) := do
  let (high, cs) ← unit cs
  if 0xDC00 ≤ high ∧ high ≤ 0xDFFF then throw (.before .loneSurrogate cs)
  if high < 0xD800 ∨ 0xDBFF < high then return (Char.ofNat high, cs)
  let ((), cs) ← pairMark '\\' cs
  let ((), cs) ← pairMark 'u' cs
  let (low, cs) ← unit cs
  if low < 0xDC00 ∨ 0xDFFF < low then throw (.before .loneSurrogate cs)
  return (Char.ofNat ((high - 0xD800) * 0x400 + (low - 0xDC00) + 0x10000), cs)

/-- An escaped character, the backslash already read. -/
def escape : List Char → Outcome (Got Char)
  | [] => .error (.before .endInString [])
  | '"' :: cs => .ok ('"', cs)
  | '\\' :: cs => .ok ('\\', cs)
  | '/' :: cs => .ok ('/', cs)
  | 'b' :: cs => .ok ('\x08', cs)
  | 'f' :: cs => .ok ('\x0c', cs)
  | 'n' :: cs => .ok ('\n', cs)
  | 'r' :: cs => .ok ('\r', cs)
  | 't' :: cs => .ok ('\t', cs)
  | 'u' :: cs => unitEscape cs
  | cs => .error ⟨.badEscape, cs, 1⟩

/-- The characters up to the closing quote, fewer than `bound` has. -/
def characters : (bound : List Char) → List Char → Outcome (Got (List Char))
  | _, [] => .error (.before .endInString [])
  | [], cs => .error (.before .endInString cs)
  | _ :: bound, c :: cs =>
    if c = '"' then .ok ([], cs)
    else if c = '\\' then do
      let (e, cs) ← escape cs
      let (es, cs) ← characters bound cs
      return (e :: es, cs)
    else if c.toNat < 0x20 then .error ⟨.controlCharacter, c :: cs, 1⟩
    else do
      let (es, cs) ← characters bound cs
      return (c :: es, cs)

/-- A string, its opening quote already read. Its quote included, no string has more characters
than the text. -/
def string (cs : List Char) : Outcome (Got String) := do
  let (es, cs) ← characters cs cs
  return (String.ofList es, cs)

end Beamline.Json

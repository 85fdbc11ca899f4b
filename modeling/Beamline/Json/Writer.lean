import Beamline.Json.Basic
import Beamline.Decimal.Style
import Beamline.Text.Hex

/-!
# Writing JSON

* `Json.quote` : a string with its quotes and escapes;
* `Json.compact` : a value without any blanks;
* `Json.indented` : a value with every item and member on a line of its own;
* `Json.layout` : the form of encoded documents, see there.

All of them are functions to lists of characters; `compactText`, `indentedText` and `layoutText`
are the strings.
-/

namespace Beamline.Json

open Decimal Text

/-! ## Scalars -/

/-- A character inside quotes: quotes, backslashes and control characters are escaped. -/
def escaped (c : Char) : List Char :=
  if c = '"' then ['\\', '"']
  else if c = '\\' then ['\\', '\\']
  else if c = '\x08' then ['\\', 'b']
  else if c = '\x0c' then ['\\', 'f']
  else if c = '\n' then ['\\', 'n']
  else if c = '\r' then ['\\', 'r']
  else if c = '\t' then ['\\', 't']
  else if c.toNat < 0x20 then
    ['\\', 'u', '0', '0', hexDigit (c.toNat / 16), hexDigit (c.toNat % 16)]
  else [c]

/-- A string with its quotes. -/
def quote (s : String) : List Char :=
  '"' :: s.toList.flatMap escaped ++ ['"']

/-- The digits of a whole number with its sign. -/
def wholeText (n : Int) : List Char :=
  if n < 0 then '-' :: digitsOfNat n.natAbs else digitsOfNat n.natAbs

/-- A number; there is no number for a float that is not finite. -/
def numberText : Number → List Char
  | .whole n => wholeText n
  | .float x => if x.isFinite then Style.json.write x else ['n', 'u', 'l', 'l']

/-- The text of a value that is neither an array nor an object. -/
def scalarText : Json → List Char
  | .null => ['n', 'u', 'l', 'l']
  | .bool true => ['t', 'r', 'u', 'e']
  | .bool false => ['f', 'a', 'l', 's', 'e']
  | .num n => numberText n
  | .str s => quote s
  | .arr _ => []
  | .obj _ => []

/-! ## On one line -/

/-- The marks that part items and that part a name from its value. -/
structure Marks where
  comma : List Char
  colon : List Char

/-- No blanks at all. -/
def Marks.tight : Marks := ⟨[','], [':']⟩

/-- A space behind every comma and colon. -/
def Marks.spaced : Marks := ⟨[',', ' '], [':', ' ']⟩

mutual

/-- A value on one line. -/
def line (m : Marks) : Json → List Char
  | .arr items => '[' :: lineItems m items
  | .obj members => '{' :: lineMembers m members
  | .null => scalarText .null
  | .bool b => scalarText (.bool b)
  | .num n => scalarText (.num n)
  | .str s => scalarText (.str s)

/-- Items up to the closing bracket. -/
def lineItems (m : Marks) : List Json → List Char
  | [] => [']']
  | [v] => line m v ++ [']']
  | v :: vs => line m v ++ m.comma ++ lineItems m vs

/-- Members up to the closing brace. -/
def lineMembers (m : Marks) : List (String × Json) → List Char
  | [] => ['}']
  | [(key, v)] => quote key ++ m.colon ++ line m v ++ ['}']
  | (key, v) :: vs => quote key ++ m.colon ++ line m v ++ m.comma ++ lineMembers m vs

end

/-- A value without blanks. -/
def compact (v : Json) : List Char :=
  line .tight v

/-! ## On many lines -/

/-- A line feed and two spaces for each level. -/
def newline (level : Nat) : List Char :=
  '\n' :: List.replicate (2 * level) ' '

mutual

/-- A value with every item and member on a line of its own, the value itself at `level`. -/
def indented (level : Nat) : Json → List Char
  | .arr [] => ['[', ']']
  | .arr (v :: vs) => '[' :: newline (level + 1) ++ indentedItems level (v :: vs)
  | .obj [] => ['{', '}']
  | .obj (m :: ms) => '{' :: newline (level + 1) ++ indentedMembers level (m :: ms)
  | .null => scalarText .null
  | .bool b => scalarText (.bool b)
  | .num n => scalarText (.num n)
  | .str s => scalarText (.str s)

/-- Items up to the closing bracket, which stands at `level`. -/
def indentedItems (level : Nat) : List Json → List Char
  | [] => [']']
  | [v] => indented (level + 1) v ++ newline level ++ [']']
  | v :: vs => indented (level + 1) v ++ ',' :: newline (level + 1) ++ indentedItems level vs

/-- Members up to the closing brace, which stands at `level`. -/
def indentedMembers (level : Nat) : List (String × Json) → List Char
  | [] => ['}']
  | [(key, v)] => quote key ++ [':', ' '] ++ indented (level + 1) v ++ newline level ++ ['}']
  | (key, v) :: vs =>
    quote key ++ [':', ' '] ++ indented (level + 1) v ++ ',' :: newline (level + 1) ++
      indentedMembers level vs

end

mutual

/-- The layout of encoded documents: the members of an object stand on lines of their own as long
as only objects lie around it, and everything else stays on one line. -/
def block (level : Nat) : Json → List Char
  | .obj [] => ['{', '}']
  | .obj (m :: ms) => '{' :: newline (level + 1) ++ blockMembers level (m :: ms)
  | .arr items => line .spaced (.arr items)
  | .null => scalarText .null
  | .bool b => scalarText (.bool b)
  | .num n => scalarText (.num n)
  | .str s => scalarText (.str s)

/-- Members up to the closing brace, which stands at `level`. -/
def blockMembers (level : Nat) : List (String × Json) → List Char
  | [] => ['}']
  | [(key, v)] => quote key ++ [':', ' '] ++ block (level + 1) v ++ newline level ++ ['}']
  | (key, v) :: vs =>
    quote key ++ [':', ' '] ++ block (level + 1) v ++ ',' :: newline (level + 1) ++
      blockMembers level vs

end

/-- The layout of encoded documents, ending in a line feed. -/
def layout (v : Json) : List Char :=
  block 0 v ++ ['\n']

/-! ## Strings -/

def compactText (v : Json) : String := String.ofList v.compact

def indentedText (v : Json) : String := String.ofList (v.indented 0)

def layoutText (v : Json) : String := String.ofList v.layout

end Beamline.Json

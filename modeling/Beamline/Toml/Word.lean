import Beamline.Decimal.Basic
import Beamline.Text.Hex
import Beamline.Text.Scanner

/-!
# Blanks, strings and keys of TOML

* `Toml.skipLines` : the text behind blanks, comments and ends of lines;
* `Toml.string` : the scanner of strings, on one line or on many;
* `Toml.key`, `Toml.path` : the scanners of keys and of keys parted by points.
-/

namespace Beamline.Toml

open Text Text.Scanner

/-! ## Blanks -/

/-- A space or a tab. -/
def isSpace (c : Char) : Bool :=
  c == ' ' || c == '\t'

def skipSpace (cs : List Char) : List Char :=
  cs.dropWhile isSpace

/-- A character that may stand in a comment or a string on one line. -/
def isPlain (c : Char) : Bool :=
  c == '\t' || (0x20 ≤ c.toNat && c.toNat != 0x7f)

/-- The end of a line. -/
def newline : Scanner Unit
  | '\n' :: cs => some ((), cs)
  | '\r' :: '\n' :: cs => some ((), cs)
  | _ => none

/-- The text behind a comment, if there is one. -/
def skipComment : List Char → List Char
  | '#' :: cs => cs.dropWhile isPlain
  | cs => cs

/-- The text behind blanks, comments and ends of lines, at most `fuel` lines of them. -/
def skipLines : Nat → List Char → List Char
  | 0, cs => cs
  | fuel + 1, cs =>
    let rest := skipComment (skipSpace cs)
    match newline rest with
    | some (_, rest) => skipLines fuel rest
    | none => rest

/-! ## Strings -/

/-- The character with the code point that the first `n` characters spell in hexadecimal digits. -/
def codePoint (n : Nat) : Scanner Char := fun cs => do
  let ds ← (cs.take n).mapM hexDigit?
  let code := ds.foldl (fun m d => 16 * m + d) 0
  if ds.length = n ∧ code.isValidChar then some (Char.ofNat code, cs.drop n) else none

/-- An escaped character, the backslash already read. -/
def escape : Scanner Char
  | 'b' :: cs => some ('\x08', cs)
  | 'e' :: cs => some ('\x1b', cs)
  | 't' :: cs => some ('\t', cs)
  | 'n' :: cs => some ('\n', cs)
  | 'f' :: cs => some ('\x0c', cs)
  | 'r' :: cs => some ('\r', cs)
  | '"' :: cs => some ('"', cs)
  | '\\' :: cs => some ('\\', cs)
  | 'x' :: cs => codePoint 2 cs
  | 'u' :: cs => codePoint 4 cs
  | 'U' :: cs => codePoint 8 cs
  | _ => none

/-- The characters of a string up to its closing quote, at most `fuel` of them. -/
def basic : Nat → Scanner (List Char)
  | 0, _ => none
  | _, [] => none
  | fuel + 1, c :: cs =>
    if c = '"' then some ([], cs)
    else if c = '\\' then do
      let (e, cs) ← escape cs
      let (es, cs) ← basic fuel cs
      return (e :: es, cs)
    else if isPlain c then (basic fuel cs).map fun (es, cs) => (c :: es, cs)
    else none

/-- The characters of a literal string up to its closing quote. -/
def literal : Scanner (List Char)
  | [] => none
  | c :: cs =>
    if c = '\'' then some ([], cs)
    else if isPlain c then (literal cs).map fun (es, cs) => (c :: es, cs)
    else none

/-- The text behind blanks and ends of lines. -/
def skipFolded (cs : List Char) : List Char :=
  cs.dropWhile fun c => isSpace c || c == '\n' || c == '\r'

/-- The characters of a string of many lines up to three quotes `q`, at most `fuel` of them. Up to
two more quotes belong to the string. -/
def manyLines (q : Char) (escapes : Bool) : Nat → Scanner (List Char)
  | 0, _ => none
  | fuel + 1, cs =>
    if cs.take 3 = [q, q, q] then
      let more := ((cs.drop 3).take 2).takeWhile (· == q)
      some (more, cs.drop (3 + more.length))
    else
      match cs with
      | [] => none
      | '\r' :: '\n' :: cs => (manyLines q escapes fuel cs).map fun (es, cs) => ('\n' :: es, cs)
      | c :: cs =>
        if escapes && c = '\\' then
          let line := skipSpace cs
          if (newline line).isSome then manyLines q escapes fuel (skipFolded line)
          else do
            let (e, cs) ← escape cs
            let (es, cs) ← manyLines q escapes fuel cs
            return (e :: es, cs)
        else if isPlain c || c = '\n' then
          (manyLines q escapes fuel cs).map fun (es, cs) => (c :: es, cs)
        else none

/-- A string of one line between quotes. -/
def lineString (cs : List Char) : Option (List Char × List Char) :=
  match cs with
  | '"' :: cs => basic (cs.length + 1) cs
  | '\'' :: cs => literal cs
  | _ => none

/-- A string, on one line or on many. An end of line behind three opening quotes does not count. -/
def string : Scanner (List Char) := fun cs =>
  let body := cs.drop 3
  let body := ((newline body).map Prod.snd).getD body
  if cs.take 3 = ['"', '"', '"'] then manyLines '"' true (body.length + 1) body
  else if cs.take 3 = ['\'', '\'', '\''] then manyLines '\'' false (body.length + 1) body
  else lineString cs

/-! ## Keys -/

/-- A character of a key without quotes. -/
def isBare (c : Char) : Bool :=
  c.isAlphanum || c == '_' || c == '-'

/-- A key, with or without quotes. -/
def key : Scanner String := fun cs =>
  match lineString cs with
  | some (k, cs) => some (String.ofList k, cs)
  | none =>
    let k := cs.takeWhile isBare
    if k.isEmpty then none else some (String.ofList k, cs.dropWhile isBare)

/-- The point between two keys, with the blanks around it. -/
def point : Scanner Unit := fun cs => do
  let (_, cs) ← char '.' (skipSpace cs)
  return ((), skipSpace cs)

/-- Keys parted by points. -/
def path : Scanner (List String) := fun cs =>
  sepBy1 key point cs.length cs

end Beamline.Toml

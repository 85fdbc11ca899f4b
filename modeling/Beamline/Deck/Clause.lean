import Beamline.Dialect
import Beamline.Text.Blank

/-!
# Clauses

A deck is a lattice file. It is cut into clauses, one for each statement, without comments.

* elegant : a clause ends with its line, unless the line ends in `&`; `!` starts a comment. A
  comment `! TITLE: …` before the first clause is the title of the deck.
* MAD-X : a clause ends with `;`; there are the comments `! …`, `// …` and `/* … */`.

Quoted text is left alone in both.

* `Deck.cut` : the clauses of a deck and its title;
* `bracketDepth` : how deep the brackets of a clause nest.
-/

namespace Beamline.Deck

open Text

/-- The text of a statement and the line where it starts. -/
structure Clause where
  line : Nat
  text : List Char
  deriving DecidableEq, Repr

/-- A deck cut into clauses. -/
structure Cut where
  clauses : List Clause
  title : Option String
  deriving DecidableEq, Repr

/-- Quotation marks. -/
def isQuote (c : Char) : Bool :=
  c == '"' || c == '\''

/-- A clause without the blanks around it; there is none if it has nothing else. -/
def clause? (line : Nat) (text : List Char) : Option Clause :=
  match trim text with
  | [] => none
  | text => some ⟨line, text⟩

/-! ## elegant -/

/-- The lines of a text. -/
def lines : List Char → List (List Char)
  | [] => []
  | c :: cs =>
    if c = '\n' then [] :: lines cs
    else
      match lines cs with
      | [] => [[c]]
      | l :: rest => (c :: l) :: rest

/-- The code of a line and its comment; `quote` is the mark that the line stands in. -/
def splitComment (quote : Option Char) : List Char → List Char × Option (List Char)
  | [] => ([], none)
  | c :: cs =>
    match quote with
    | some q =>
      let (code, comment) := splitComment (if c = q then none else some q) cs
      (c :: code, comment)
    | none =>
      if c = '!' then ([], some cs)
      else
        let (code, comment) := splitComment (if isQuote c then some c else none) cs
        (c :: code, comment)

/-- The title in a comment of the form `TITLE: …`. -/
def titleIn? (comment : List Char) : Option String :=
  let cs := trim comment
  if upper (cs.take 6) = ['T', 'I', 'T', 'L', 'E', ':'] then
    some (String.ofList (trim (cs.drop 6)))
  else none

/-- The code of a line without the mark `&` at its end, and whether the mark was there. -/
def continuation (code : List Char) : List Char × Bool :=
  if code.getLast? = some '&' then (code.dropLast, true) else (code, false)

/-- The clauses that have ended, the one that goes on, and the title. -/
structure Gathered where
  clauses : List Clause := []
  pending : Option Clause := none
  title : Option String := none

/-- Adds the code of a line to the clause that goes on, or starts one with it. -/
def Gathered.extend (g : Gathered) (line : Nat) (code : List Char) : Gathered :=
  if code.isEmpty then g
  else
    let clause := g.pending.getD ⟨line, []⟩
    { g with pending := some { clause with text := clause.text ++ code ++ [' '] } }

/-- Ends the clause that goes on. -/
def Gathered.finish (g : Gathered) : Gathered :=
  match g.pending with
  | none => g
  | some c => { g with clauses := g.clauses ++ [{ c with text := trim c.text }], pending := none }

/-- Takes in one line. A title counts only before the first clause. -/
def Gathered.line (g : Gathered) (number : Nat) (raw : List Char) : Gathered :=
  let (code, comment) := splitComment none raw
  let fresh := g.title.isNone && g.clauses.isEmpty && g.pending.isNone
  let g := if fresh then { g with title := comment.bind titleIn? } else g
  let (code, continued) := continuation (trim code)
  let g := g.extend number code
  if continued then g else g.finish

/-- Takes in lines, the first of which has the given number. -/
def Gathered.lines (g : Gathered) (number : Nat) : List (List Char) → Gathered
  | [] => g
  | l :: rest => (g.line number l).lines (number + 1) rest

/-- The clauses of an elegant deck. -/
def cutElegant (text : List Char) : Cut :=
  let g := (({} : Gathered).lines 1 (lines text)).finish
  ⟨g.clauses, g.title⟩

/-! ## MAD-X -/

/-- What the next character of a deck belongs to. -/
inductive Within where
  | code
  | quoted (mark : Char)
  | lineComment
  /-- A comment that ends with `*/`; `star` tells whether the last character was a `*`. -/
  | blockComment (star : Bool)
  deriving DecidableEq, Repr

/-- The line that is being read, and the clause that is being read with the line of its start,
its characters in reverse. -/
structure Reading where
  line : Nat := 1
  start : Nat := 1
  taken : List Char := []

/-- The clause that has been read. -/
def Reading.clause? (r : Reading) : Option Clause :=
  Deck.clause? r.start r.taken.reverse

/-- Adds a character to the clause. -/
def Reading.take (r : Reading) (c : Char) : Reading :=
  { r with taken := c :: r.taken, start := if r.taken.isEmpty then r.line else r.start }

/-- A line feed in the code: a blank, but not at the start of a clause. -/
def Reading.newline (r : Reading) : Reading :=
  { r with line := r.line + 1, taken := if r.taken.isEmpty then [] else ' ' :: r.taken }

/-- The line after `c`. -/
def Reading.count (r : Reading) (c : Char) : Reading :=
  if c = '\n' then { r with line := r.line + 1 } else r

/-- The clauses of a MAD-X deck from a place inside it on. -/
def cutMadxFrom (within : Within) (r : Reading) : List Char → List Clause
  | [] => r.clause?.toList
  | c :: cs =>
    match within with
    | .quoted mark =>
      cutMadxFrom (if c = mark then .code else .quoted mark) ((r.take c).count c) cs
    | .lineComment =>
      if c = '\n' then cutMadxFrom .code r.newline cs else cutMadxFrom .lineComment r cs
    | .blockComment star =>
      if star && c = '/' then cutMadxFrom .code r cs
      else cutMadxFrom (.blockComment (c = '*')) (r.count c) cs
    | .code =>
      match c, cs with
      | '/', '/' :: cs => cutMadxFrom .lineComment r cs
      | '/', '*' :: cs => cutMadxFrom (.blockComment false) r cs
      | c, cs =>
        if c = '!' then cutMadxFrom .lineComment r cs
        else if c = ';' then
          r.clause?.toList ++ cutMadxFrom .code { r with taken := [] } cs
        else if c = '\n' then cutMadxFrom .code r.newline cs
        else if isBlank c && r.taken.isEmpty then cutMadxFrom .code r cs
        else cutMadxFrom (if isQuote c then .quoted c else .code) (r.take c) cs

/-- The clauses of a MAD-X deck. -/
def cutMadx (text : List Char) : Cut :=
  ⟨cutMadxFrom .code {} text, none⟩

/-- The clauses of a deck. -/
def cut (d : Dialect) (text : List Char) : Cut :=
  match d with
  | .elegant => cutElegant text
  | .madx => cutMadx text

/-! ## Brackets -/

/-- How deep the brackets of a text nest below `depth`; brackets in quotes do not count. -/
def bracketDepthFrom (quote : Option Char) (depth : Nat) : List Char → Nat
  | [] => 0
  | c :: cs =>
    match quote with
    | some q => bracketDepthFrom (if c = q then none else some q) depth cs
    | none =>
      if isQuote c then bracketDepthFrom (some c) depth cs
      else if c = '(' || c = '{' then max (depth + 1) (bracketDepthFrom none (depth + 1) cs)
      else if c = ')' || c = '}' then bracketDepthFrom none (depth - 1) cs
      else bracketDepthFrom none depth cs

/-- How deep the brackets of a text nest. -/
def bracketDepth (text : List Char) : Nat :=
  bracketDepthFrom none 0 text

/-- How deep the brackets of a clause may nest. -/
def maxBracketDepth : Nat := 64

end Beamline.Deck

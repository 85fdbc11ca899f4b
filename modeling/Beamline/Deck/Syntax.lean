/-!
# Statements of a deck

The statements that a clause can spell, with the expressions and line items in them. Names are in
upper case throughout.
-/

namespace Beamline.Deck

/-- The operators of sums and products. -/
inductive Op where
  | add
  | sub
  | mul
  | div
  deriving DecidableEq, Repr

/-- An arithmetic expression. Chains of operators are flat, so that only brackets nest. -/
inductive Expr where
  | number (x : Float)
  | var (name : String)
  | call (function : String) (argument : Expr)
  | neg (e : Expr)
  /-- `first op e op e …`, taken from left to right. -/
  | chain (first : Expr) (rest : List (Op × Expr))
  /-- `e ^ e ^ …`, taken from right to left. -/
  | power (operands : List Expr)

/-- The value of an attribute as written. -/
inductive Literal where
  | expr (e : Expr)
  | text (s : String)
  | array (es : List Expr)

/-- An argument of a command, a word that may have a key. -/
structure Argument where
  key : Option String
  word : String
  deriving DecidableEq, Repr

/-- An item of a line: a name or a group, repeated and perhaps reversed. -/
inductive LineItem where
  | name (count : Nat) (reversed : Bool) (name : String)
  | group (count : Nat) (reversed : Bool) (items : List LineItem)

inductive Statement where
  /-- `NAME = e` or `NAME := e` -/
  | assign (name : String) (value : Expr)
  /-- `NAME: KEYWORD, KEY = value, …` -/
  | element (name keyword : String) (attributes : List (String × Literal))
  /-- `NAME: LINE = (item, …)` -/
  | line (name : String) (items : List LineItem)
  /-- `KEYWORD, word, KEY = word, …` -/
  | command (keyword : String) (arguments : List Argument)

end Beamline.Deck

import Beamline.Deck.Syntax
import Beamline.Proofs.Deck.Value

/-!
# Statements in writing

Brackets stand only where an operand is bound no tighter than the operator beside it.

* `Spells`, `Layout` : the text of a number, and the choices that the grammar leaves to a writer;
* `Op.strength`, `Expr.strength` : how tightly operators bind;
* `Layout.expr`, `Layout.items`, `Layout.statement` : the texts of expressions, of the items of a
  line and of statements;
* `Expr.Expressible`, `LineItem.Expressible`, `Statement.Expressible` : what the grammar can
  express.
-/

namespace Beamline.Deck

open Text

/-- The text stands for the number `x`, whatever comes behind it. -/
structure Spells (cs : List Char) (x : Float) : Prop where
  head : ∃ c rest, cs = c :: rest ∧ (c.isDigit ∨ c = '.')
  read : ∀ rest, Json.Delimited rest → Word.magnitude (cs ++ rest) = some (x, rest)

/-- The numbers that are written without a sign: finite, and without the minus sign that negative
zero has too. -/
def IsMagnitude (x : Float) : Prop :=
  x.isFinite ∧ x.abs = x

/-- The choices that the grammar leaves to a writer: what stands between words and signs, how
numbers are spelled, whether `**` stands for `^` and whether `:=` stands for `=`. -/
structure Layout where
  gap : List Char
  gapped : Gap gap
  numeral : Float → List Char
  spells : ∀ x, IsMagnitude x → Spells (numeral x) x
  stars : Bool
  colon : Bool

/-- Numbers without a sign are spelled as decks write them. -/
theorem spells_plain {x : Float} (hx : IsMagnitude x) : Spells (plain x).toList x := by
  obtain ⟨n, hw⟩ := Decimal.exists_written_of_abs (s := .plain) (.inl rfl) hx.1 hx.2
  have htext : (plain x).toList = n.text := by
    rw [plain, String.toList_ofList, hw.text]
    rfl
  rw [htext]
  refine ⟨?_, fun rest hrest => ?_⟩
  · obtain ⟨c, cs, h, hc⟩ := Grammar.exists_head_text hw.good
    exact ⟨c, cs, h, .inl hc⟩
  · rw [Word.magnitude_text hw.good (hw.positional fun _ => rfl) hrest]
    exact congrArg (fun y => some (y, rest)) hw.value

/-- The layout of decks, with one gap throughout. -/
def Layout.deck (gap : List Char) (gapped : Gap gap) (stars colon : Bool) : Layout where
  gap := gap
  gapped := gapped
  numeral x := (plain x).toList
  spells _ := spells_plain
  stars := stars
  colon := colon

/-! ## Expressions -/

/-- How tightly an operator binds. -/
def Op.strength : Op → Nat
  | .add | .sub => 0
  | .mul | .div => 1

def Op.sign : Op → Char
  | .add => '+'
  | .sub => '-'
  | .mul => '*'
  | .div => '/'

/-- How tightly an expression is bound: sums before products, products before negations, these
before powers, and what stands alone last. -/
def Expr.strength : Expr → Nat
  | .chain _ ((op, _) :: _) => op.strength
  | .chain _ [] => 0
  | .neg _ => 2
  | .power _ => 3
  | .number _ | .var _ | .call _ _ => 4

theorem Op.strength_le (op : Op) : op.strength ≤ 1 := by
  cases op <;> decide

theorem Expr.strength_chain_le (first : Expr) (rest : List (Op × Expr)) :
    (Expr.chain first rest).strength ≤ 1 := by
  cases rest with
  | nil => exact Nat.zero_le _
  | cons o rest => exact o.1.strength_le

theorem Expr.strength_chain {first : Expr} {rest : List (Op × Expr)} {k : Nat} (hne : rest ≠ [])
    (h : ∀ o ∈ rest, o.1.strength = k) : (Expr.chain first rest).strength = k := by
  obtain ⟨o, rest, rfl⟩ := List.exists_cons_of_ne_nil hne
  exact h o (by simp)

/-- Expressions of the shapes that are read: chains of sums or of products, powers of at least two
operands, negations, calls, variables and numbers without a sign. -/
inductive Expr.Expressible : Expr → Prop where
  | number {x : Float} : IsMagnitude x → Expressible (.number x)
  | var {name : String} : isPlainName name → Expressible (.var name)
  | call {function : String} {argument : Expr} :
    isPlainName function → Expressible argument → Expressible (.call function argument)
  | neg {e : Expr} : Expressible e → Expressible (.neg e)
  | chain {first : Expr} {rest : List (Op × Expr)} {strength : Nat} : rest ≠ [] →
    (∀ o ∈ rest, o.1.strength = strength) → Expressible first →
    (∀ o ∈ rest, Expressible o.2) → Expressible (.chain first rest)
  | power {first : Expr} {rest : List Expr} : rest ≠ [] → Expressible first →
    (∀ e ∈ rest, Expressible e) → Expressible (.power (first :: rest))

namespace Layout

variable (l : Layout)

/-- A word or a sign with the gap behind it. -/
def token (cs : List Char) : List Char :=
  cs ++ l.gap

def bracketed (cs : List Char) : List Char :=
  l.token ['('] ++ cs ++ l.token [')']

/-- Texts one after the other, each behind a comma. -/
def behind {α : Type} (text : α → List Char) (as : List α) : List Char :=
  as.flatMap fun a => l.token [','] ++ text a

/-- The text `cs` of the expression `e` where an operand has to be bound with at least `level`. -/
def guarded (level : Nat) (e : Expr) (cs : List Char) : List Char :=
  if e.strength < level then l.bracketed cs else cs

/-- The sign of powers. -/
def caret : List Char :=
  l.token (if l.stars then ['*', '*'] else ['^'])

/-- The sign of assignments. -/
def equals : List Char :=
  l.token (if l.colon then [':', '='] else ['='])

mutual

/-- The text of an expression. -/
def expr : Expr → List Char
  | .number x => l.token (l.numeral x)
  | .var name => l.token name.toList
  | .call function argument => l.token function.toList ++ l.bracketed (expr argument)
  | .neg e => l.token ['-'] ++ l.guarded 3 e (expr e)
  | .chain first rest =>
    let level := (Expr.chain first rest).strength + 1
    l.guarded level first (expr first) ++ tails level rest
  | .power [] => []
  | .power (first :: rest) => l.guarded 4 first (expr first) ++ exponents rest

/-- The operators of a chain, each before its operand. -/
def tails (level : Nat) : List (Op × Expr) → List Char
  | [] => []
  | (op, e) :: rest => l.token [op.sign] ++ l.guarded level e (expr e) ++ tails level rest

/-- The operands of a power behind the first. A minus sign may stand before an operand without
brackets. -/
def exponents : List Expr → List Char
  | [] => []
  | .neg e :: rest => l.caret ++ (l.token ['-'] ++ l.guarded 4 e (expr e)) ++ exponents rest
  | e :: rest => l.caret ++ l.guarded 4 e (expr e) ++ exponents rest

end

/-- The text of an expression where it has to be bound with at least `level`. -/
def operand (level : Nat) (e : Expr) : List Char :=
  l.guarded level e (l.expr e)

/-- The text of an operand behind the sign of powers. -/
def exponent : Expr → List Char
  | .neg e => l.token ['-'] ++ l.operand 4 e
  | e => l.operand 4 e

/-- The text of an operand of a chain with the operator before it. -/
def joined (level : Nat) (o : Op × Expr) : List Char :=
  l.token [o.1.sign] ++ l.operand level o.2

/-- The text of an operand of a power with the sign of powers before it. -/
def raised (e : Expr) : List Char :=
  l.caret ++ l.exponent e

theorem tails_eq_flatMap (level : Nat) (rest : List (Op × Expr)) :
    l.tails level rest = rest.flatMap (l.joined level) := by
  induction rest with
  | nil => rfl
  | cons o rest ih =>
    rw [tails, ih, List.flatMap_cons]
    rfl

theorem exponents_eq_flatMap (rest : List Expr) :
    l.exponents rest = rest.flatMap l.raised := by
  induction rest with
  | nil => rfl
  | cons e rest ih =>
    rw [List.flatMap_cons, ← ih]
    cases e <;> rfl

theorem operand_of_le {level : Nat} {e : Expr} (h : level ≤ e.strength) :
    l.operand level e = l.expr e := by
  rw [operand, guarded, if_neg (by omega)]

theorem expr_power (first : Expr) (rest : List Expr) :
    l.expr (.power (first :: rest)) = l.operand 4 first ++ rest.flatMap l.raised := by
  rw [expr, exponents_eq_flatMap, operand]

theorem expr_chain {first : Expr} {rest : List (Op × Expr)} {level : Nat}
    (h : (Expr.chain first rest).strength = level) :
    l.expr (.chain first rest) =
      l.operand (level + 1) first ++ rest.flatMap (l.joined (level + 1)) := by
  rw [expr, tails_eq_flatMap, h, operand]

/-- Only what is bound with `level` itself is written otherwise where more is asked for. -/
theorem operand_eq_succ {level : Nat} {e : Expr} (h : e.strength ≠ level) :
    l.operand level e = l.operand (level + 1) e := by
  unfold operand guarded
  rw [if_congr (show e.strength < level ↔ e.strength < level + 1 by omega) rfl rfl]

end Layout

/-! ## Lines -/

/-- Items of a line with counts below `2 ^ 64` and groups that are not empty. -/
inductive LineItem.Expressible : LineItem → Prop where
  | name {count : Nat} {reversed : Bool} {name : String} : count < 0x10000000000000000 →
    isPlainName name → Expressible (.name count reversed name)
  | group {count : Nat} {reversed : Bool} {items : List LineItem} : count < 0x10000000000000000 →
    items ≠ [] → (∀ i ∈ items, Expressible i) → Expressible (.group count reversed items)

namespace Layout

variable (l : Layout)

/-- How often an item is repeated, unless it stands once, and a minus sign if it is reversed. -/
def times (count : Nat) (reversed : Bool) : List Char :=
  (if count = 1 then [] else l.token (Decimal.digitsOfNat count) ++ l.token ['*']) ++
    if reversed then l.token ['-'] else []

mutual

/-- The text of an item of a line. -/
def item : LineItem → List Char
  | .name count reversed name => l.times count reversed ++ l.token name.toList
  | .group count reversed items => l.times count reversed ++ l.bracketed (itemsOf items)

/-- The texts of items, with commas between them. -/
def itemsOf : List LineItem → List Char
  | [] => []
  | i :: rest => item i ++ itemsBehind rest

/-- The texts of items, each behind a comma. -/
def itemsBehind : List LineItem → List Char
  | [] => []
  | i :: rest => l.token [','] ++ item i ++ itemsBehind rest

end

theorem itemsBehind_eq (rest : List LineItem) : l.itemsBehind rest = l.behind l.item rest := by
  induction rest with
  | nil => rfl
  | cons i rest ih => rw [itemsBehind, ih, behind, behind, List.flatMap_cons]

end Layout

/-! ## Statements -/

def Literal.Expressible : Literal → Prop
  | .expr e => e.Expressible
  | .text s => '"' ∉ s.toList
  | .array es => ∀ e ∈ es, e.Expressible

def Statement.Expressible : Statement → Prop
  | .assign name value => isPlainName name ∧ value.Expressible
  | .element name keyword attributes => isPlainName name ∧ isPlainName keyword ∧
    keyword ≠ "LINE" ∧ ∀ a ∈ attributes, isPlainName a.1 ∧ a.2.Expressible
  | .line name items => isPlainName name ∧ items ≠ [] ∧ ∀ i ∈ items, i.Expressible
  | .command keyword arguments => isPlainName keyword ∧
    ∀ a ∈ arguments, (∀ key ∈ a.key, isPlainName key) ∧ '"' ∉ a.word.toList

namespace Layout

variable (l : Layout)

/-- A text between quotation marks. -/
def quoted (s : String) : List Char :=
  l.token ('"' :: (s.toList ++ ['"']))

/-- The text of the value of an attribute. -/
def literal : Literal → List Char
  | .expr e => l.expr e
  | .text s => l.quoted s
  | .array [] => l.token ['{'] ++ l.token ['}']
  | .array (e :: rest) => l.token ['{'] ++ (l.expr e ++ l.behind l.expr rest) ++ l.token ['}']

/-- A word with the sign of assignments behind it. -/
def key (name : String) : List Char :=
  l.token name.toList ++ l.equals

/-- The text of an attribute. -/
def setting (a : String × Literal) : List Char :=
  l.key a.1 ++ l.literal a.2

/-- The text of an argument of a command. -/
def argument (a : Argument) : List Char :=
  a.key.elim [] l.key ++ l.quoted a.word

/-- A word with a colon behind it. -/
def label (name : String) : List Char :=
  l.token name.toList ++ l.token [':']

/-- The text of a statement. -/
def statement : Statement → List Char
  | .assign name value => l.gap ++ (l.key name ++ l.expr value)
  | .element name keyword attributes =>
    l.gap ++ (l.label name ++ (l.token keyword.toList ++ l.behind l.setting attributes))
  | .line name items =>
    l.gap ++ (l.label name ++ (l.key "LINE" ++ l.bracketed (l.itemsOf items)))
  | .command keyword arguments =>
    l.gap ++ (l.token keyword.toList ++ l.behind l.argument arguments)

end Layout

end Beamline.Deck

import Beamline.Proofs.Deck.Expressions

/-!
# Towers of powers

A tower is a chain of powers in which a minus sign may stand in front of every operand. The minus
sign in front of the first operand negates the whole tower; one in front of a later operand negates
that operand alone, before it is raised to what stands behind it.

* `IsAtom` : the texts that are read as one operand;
* `Tower`, `Tower.text` : towers in writing;
* `Tower.value`, `Tower.loose` : the value of a tower, and the value that it would have if every
  minus sign negated all that stands behind it;
* `Tower.reads` : a tower is read as an expression;
* `read_tower` : the expression has the value of the tower.
-/

namespace Beamline.Deck

open Text Text.Scanner Decimal

/-- The text is read as the operand `e` of a power, whatever follows it. -/
def IsAtom (cs : List Char) (e : Expr) : Prop :=
  ∀ fuel, cs.length ≤ fuel + 1 → Layout.Reads (Grammar.atom (Grammar.expression fuel)) 4 cs e

theorem isAtom_operand (l : Layout) {e : Expr} (he : e.Expressible) : IsAtom (l.operand 4 e) e :=
  fun fuel hlen => Layout.reads_atom (Layout.reads_expression fuel) he hlen

/-- An operand of a tower in writing: the sign of powers in front of it, if it is not the first, a
gap, a minus sign if there is one, and the operand. -/
structure Storey where
  stars : Bool
  gap : List Char
  gapped : Gap gap
  minus : Bool
  text : List Char
  base : Expr
  atom : IsAtom text base

namespace Storey

/-- The operand with its minus sign. -/
def signed (s : Storey) : List Char :=
  (if s.minus then ['-'] else []) ++ s.text

/-- The operand with what stands in front of it. -/
def raised (s : Storey) : List Char :=
  (if s.stars then ['*', '*'] else ['^']) ++ (s.gap ++ s.signed)

/-- The expression that the operand is read as behind the sign of powers. -/
def operand (s : Storey) : Expr :=
  if s.minus then .neg s.base else s.base

end Storey

/-- An expression as an operand in writing, in brackets where it needs them. -/
def Storey.ofExpr (l : Layout) (stars minus : Bool) {e : Expr} (he : e.Expressible) : Storey where
  stars := stars
  gap := l.gap
  gapped := l.gapped
  minus := minus
  text := l.operand 4 e
  base := e
  atom := isAtom_operand l he

/-- A chain of powers. -/
structure Tower where
  first : Storey
  rest : List Storey

section Values

variable (pow : Float → Float → Float) (vars : Variables)

/-- The value of a chain of powers in which each minus sign negates its operand alone. -/
def Storey.tight : Storey → List Storey → Except Flaw Float
  | s, [] => do
    let x ← s.base.evalBy pow vars
    return withSign s.minus x
  | s, t :: rest => do
    let y ← tight t rest
    let x ← s.base.evalBy pow vars
    return pow (withSign s.minus x) y

/-- The value of a chain of powers in which each minus sign negates all that stands behind it. -/
def Storey.loose : Storey → List Storey → Except Flaw Float
  | s, [] => do
    let x ← s.base.evalBy pow vars
    return withSign s.minus x
  | s, t :: rest => do
    let y ← loose t rest
    let x ← s.base.evalBy pow vars
    return withSign s.minus (pow x y)

/-- The value of a tower: its first minus sign negates all of it, each other its operand alone. -/
def Tower.value (t : Tower) : Except Flaw Float :=
  match t.rest with
  | [] => do
    let x ← t.first.base.evalBy pow vars
    return withSign t.first.minus x
  | s :: rest => do
    let y ← s.tight pow vars rest
    let x ← t.first.base.evalBy pow vars
    return withSign t.first.minus (pow x y)

/-- The value that a tower would have if each of its minus signs negated all that stands behind
it. -/
def Tower.loose (t : Tower) : Except Flaw Float :=
  t.first.loose pow vars t.rest

end Values

namespace Tower

/-- The text of a tower. -/
def text (t : Tower) : List Char :=
  t.first.gap ++ (t.first.signed ++ t.rest.flatMap Storey.raised)

/-- The expression that a tower is read as without its first minus sign. -/
def unsigned (t : Tower) : Expr :=
  if t.rest.isEmpty then t.first.base else .power (t.first.base :: t.rest.map Storey.operand)

/-- The expression that a tower is read as. -/
def expr (t : Tower) : Expr :=
  if t.first.minus then .neg t.unsigned else t.unsigned

end Tower

/-! ## Gaps and signs in front of operands -/

section Operands

variable {α : Type} {p : Scanner α} {inner : Scanner Expr} {cs rest : List Char} {e : Expr}

theorem solid_skipGap (cs : List Char) : Solid (skipGap cs) := by
  intro c hc
  have hnot := List.head?_dropWhile_not isGap cs
  rw [skipGap] at hc
  rw [hc] at hnot
  simpa using hnot

theorem spaced_congr {ds : List Char} (h : skipGap cs = skipGap ds) :
    spaced p cs = spaced p ds := by
  rw [spaced, h, spaced]

theorem spaced_skipGap (cs : List Char) : spaced p (skipGap cs) = spaced p cs :=
  spaced_congr (skipGap_eq_self (solid_skipGap cs))

/-- No operand starts with a sign. -/
theorem atom_sign {c : Char} (hc : c = '+' ∨ c = '-') (inner : Scanner Expr) (cs : List Char) :
    Grammar.atom inner (c :: cs) = none := by
  have hgap : isGap c = false := by rcases hc with rfl | rfl <;> decide
  have hbracket : between (mark '(') inner (mark ')') (c :: cs) = none := by
    refine after_eq_none (mark_eq_none (solid_cons hgap cs) ?_)
    rintro _ ⟨⟩
    rcases hc with rfl | rfl <;> decide
  refine spaced_eq_none (solid_cons hgap cs) ?_
  rw [orElse, Word.magnitude_eq_none (by rcases hc with rfl | rfl <;> decide)
    (by rcases hc with rfl | rfl <;> decide), Option.map_none, orElse, hbracket, Grammar.word,
    Word.name_eq_none (by rcases hc with rfl | rfl <;> decide)]
  rfl

/-- Where an operand stands there is no sign. -/
theorem head_ne_sign (h : Grammar.atom inner cs = some (e, rest)) :
    ∀ c ∈ (skipGap cs).head?, c ≠ '+' ∧ c ≠ '-' := by
  intro c hc
  obtain ⟨ds, hds⟩ : ∃ ds, skipGap cs = c :: ds := List.head?_eq_some_iff.1 hc
  have hskip : Grammar.atom inner (c :: ds) = some (e, rest) := by
    rw [← hds, Grammar.atom, spaced_skipGap]
    exact h
  refine ⟨fun hplus => ?_, fun hminus => ?_⟩
  · rw [atom_sign (.inl hplus)] at hskip
    cases hskip
  · rw [atom_sign (.inr hminus)] at hskip
    cases hskip

theorem sumOp_of_atom (h : Grammar.atom inner cs = some (e, rest)) :
    spaced Grammar.sumOp cs = none := by
  have hhead := head_ne_sign h
  rw [← spaced_skipGap]
  exact spaced_eq_none (solid_skipGap cs)
    (Layout.sumOp_eq_none (fun c hc => (hhead c hc).1) fun c hc => (hhead c hc).2)

theorem minus_of_atom (h : Grammar.atom inner cs = some (e, rest)) : mark '-' cs = none := by
  rw [mark, ← spaced_skipGap]
  exact mark_eq_none (solid_skipGap cs) fun c hc => (head_ne_sign h c hc).2

/-- A minus sign is read up to the operand behind it. -/
theorem minus_cons (cs : List Char) : mark '-' ('-' :: cs) = some ((), skipGap cs) := by
  rw [mark, spaced, skipGap_eq_self (solid_cons (by decide) cs), char_cons]
  rfl

end Operands

/-! ## Towers that are read -/

namespace Storey

variable {fuel : Nat} {rest : List Char}

theorem isEnding_raised (s : Storey) : ∃ c cs, s.raised = c :: cs ∧ Layout.IsEnding c := by
  unfold raised
  cases s.stars with
  | true => exact ⟨'*', _, rfl, by simp [Layout.IsEnding]⟩
  | false => exact ⟨'^', _, rfl, by simp [Layout.IsEnding]⟩

theorem follows_raised (s : Storey) (rest : List Char) : Layout.Follows 4 (s.raised ++ rest) where
  head := by
    obtain ⟨c, cs, h, hc⟩ := s.isEnding_raised
    rw [h]
    rintro _ ⟨⟩
    exact hc
  caret := by omega
  product := by omega
  sum := by omega

theorem spaced_caret (s : Storey) (rest : List Char) :
    spaced Grammar.caret (s.raised ++ rest) = some ((), skipGap (s.signed ++ rest)) := by
  have hskip : skipGap (s.gap ++ (s.signed ++ rest)) = skipGap (s.signed ++ rest) :=
    skipGap_append s.gapped _
  unfold raised
  cases s.stars with
  | true =>
    show spaced Grammar.caret ('*' :: '*' :: (s.gap ++ s.signed ++ rest)) = _
    rw [spaced, skipGap_eq_self (solid_cons (by decide) _), List.append_assoc, ← hskip]
    rfl
  | false =>
    show spaced Grammar.caret ('^' :: (s.gap ++ s.signed ++ rest)) = _
    rw [spaced, skipGap_eq_self (solid_cons (by decide) _), List.append_assoc, ← hskip]
    rfl

theorem atom_append (s : Storey) (hlen : s.text.length ≤ fuel + 1) (hrest : Layout.Follows 4 rest) :
    Grammar.atom (Grammar.expression fuel) (s.text ++ rest) = some (s.base, rest) :=
  s.atom fuel hlen rest hrest

/-- Behind the sign of powers an operand is read with its minus sign. -/
theorem reads_raised (s : Storey) (hlen : s.raised.length ≤ fuel + 1) :
    Layout.Reads (Grammar.exponentOperand (Grammar.expression fuel)) 4 s.raised s.operand := by
  intro rest hrest
  have hshort : s.text.length ≤ fuel + 1 := by
    simp only [raised, signed, List.length_append] at hlen
    omega
  have hatom := s.atom_append hshort hrest
  have hskip : ∀ cs, Grammar.atom (Grammar.expression fuel) (skipGap cs) =
      Grammar.atom (Grammar.expression fuel) cs := fun cs => spaced_skipGap cs
  rw [Grammar.exponentOperand, s.spaced_caret]
  cases hminus : s.minus with
  | true =>
    have hsigned : skipGap (s.signed ++ rest) = '-' :: (s.text ++ rest) := by
      rw [signed, hminus]
      exact skipGap_eq_self (solid_cons (by decide) _)
    simp [hsigned, opt, minus_cons, hskip, hatom, operand, hminus]
  | false =>
    have hsigned : s.signed ++ rest = s.text ++ rest := by
      rw [signed, hminus]
      rfl
    have hnone := minus_of_atom ((hskip (s.text ++ rest)).trans hatom)
    simp [hsigned, opt, hnone, hskip, hatom, operand, hminus]

end Storey

namespace Tower

variable {fuel : Nat} {rest : List Char}

/-- The operands behind the first are read one after the other. -/
theorem many_raised {storeys : List Storey}
    (hlen : (storeys.flatMap Storey.raised).length ≤ fuel) (hrest : Layout.Follows 4 rest)
    (hend : Grammar.exponentOperand (Grammar.expression fuel) rest = none) :
    many (Grammar.exponentOperand (Grammar.expression fuel)) fuel
      (storeys.flatMap Storey.raised ++ rest) = (storeys.map Storey.operand, rest) := by
  have hread : ∀ s ∈ storeys, ∀ rest, Layout.Follows 4 rest → ∃ e,
      Grammar.exponentOperand (Grammar.expression fuel) (s.raised ++ rest) = some (e, rest) ∧
        s.operand = e := by
    intro s hs rest hrest
    have hshort := length_le_length_flatMap Storey.raised hs
    exact ⟨_, s.reads_raised (by omega) rest hrest, rfl⟩
  have hroom : storeys.length ≤ fuel := by
    have hcount : storeys.length ≤ (storeys.flatMap Storey.raised).length := by
      refine length_le_of_pos _ fun s _ => ?_
      obtain ⟨c, cs, h, -⟩ := s.isEnding_raised
      rw [h]
      exact Nat.succ_pos _
    omega
  obtain ⟨es, hes, hall⟩ :=
    many_flatMap hread (fun s _ => s.follows_raised) hrest hend fuel hroom
  rw [← List.forall₂_map_left_iff, List.forall₂_eq_eq_eq] at hall
  rw [hes, hall]

/-- Behind its first minus sign a tower is read as a power. -/
theorem reads_power (t : Tower)
    (hlen : (t.first.text ++ t.rest.flatMap Storey.raised).length ≤ fuel) :
    Layout.Reads (Grammar.power (Grammar.expression fuel) fuel) 3
      (t.first.text ++ t.rest.flatMap Storey.raised) t.unsigned := by
  intro rest hrest
  rw [List.length_append] at hlen
  have hend : Grammar.exponentOperand (Grammar.expression fuel) rest = none := by
    rw [Grammar.exponentOperand, hrest.caret le_rfl]
    rfl
  have hbehind : Layout.Follows 4 (t.rest.flatMap Storey.raised ++ rest) := by
    cases t.rest with
    | nil => exact hrest.mono (by omega)
    | cons s storeys =>
      rw [List.flatMap_cons, List.append_assoc]
      exact s.follows_raised _
  have hfirst := t.first.atom_append (show t.first.text.length ≤ fuel + 1 by omega) hbehind
  have hmany := many_raised (show (t.rest.flatMap Storey.raised).length ≤ fuel by omega)
    (hrest.mono (by omega)) hend
  rw [List.append_assoc, Grammar.power, hfirst]
  simp [hmany, unsigned]

theorem power_congr {inner : Scanner Expr} {cs ds : List Char} (h : skipGap cs = skipGap ds) :
    Grammar.power inner fuel cs = Grammar.power inner fuel ds := by
  have hatom : Grammar.atom inner cs = Grammar.atom inner ds := spaced_congr h
  rw [Grammar.power, hatom, Grammar.power]

/-- A tower is read as a signed power, whatever gap stands in front of it. -/
theorem reads_signed (t : Tower) (hlen : t.text.length ≤ fuel) (hrest : Layout.Follows 2 rest)
    {cs : List Char} (hcs : skipGap cs = skipGap (t.text ++ rest)) :
    Grammar.signed (Grammar.expression fuel) fuel cs = some (t.expr, rest) := by
  have hgap : skipGap (t.text ++ rest) =
      skipGap (t.first.signed ++ (t.rest.flatMap Storey.raised ++ rest)) := by
    rw [text, List.append_assoc, skipGap_append t.first.gapped, List.append_assoc]
  simp only [text, Storey.signed, List.length_append] at hlen
  have hroom : (t.first.text ++ t.rest.flatMap Storey.raised).length ≤ fuel := by
    rw [List.length_append]
    omega
  have hpower := t.reads_power hroom rest (hrest.mono (by omega))
  rw [List.append_assoc] at hpower
  -- the first operand is read, so that no further sign stands in front of it
  have hsign : spaced Grammar.sumOp
      (t.first.text ++ (t.rest.flatMap Storey.raised ++ rest)) = none := by
    rw [Grammar.power] at hpower
    obtain ⟨r, hatom, -⟩ := Option.bind_eq_some_iff.1 hpower
    exact sumOp_of_atom hatom
  rw [hgap, Storey.signed] at hcs
  cases hminus : t.first.minus with
  | true =>
    rw [hminus, if_pos rfl] at hcs hlen
    obtain ⟨fuel, rfl⟩ : ∃ n, fuel = n + 1 := ⟨fuel - 1, by simp at hlen; omega⟩
    have hfirst : spaced Grammar.sumOp cs =
        some (.sub, skipGap (t.first.text ++ (t.rest.flatMap Storey.raised ++ rest))) := by
      rw [spaced_congr hcs]
      exact congrArg (Option.map _) (congrArg Grammar.sumOp
        (skipGap_eq_self (solid_cons (by decide) _)))
    rw [← power_congr (skipGap_eq_self (solid_skipGap _))] at hpower
    rw [← spaced_skipGap] at hsign
    rw [Grammar.signed, many, hfirst]
    simp [many_eq_nil hsign, hpower, expr, hminus]
  | false =>
    rw [hminus, if_neg Bool.false_ne_true, List.nil_append] at hcs
    rw [← power_congr hcs] at hpower
    rw [← spaced_congr hcs] at hsign
    rw [Grammar.signed, many_eq_nil hsign]
    simp [hpower, expr, hminus]

/-- A tower is read as an expression, whatever gap stands in front of it. -/
theorem expression_eq (t : Tower) (hlen : t.text.length < fuel) (hrest : Layout.Follows 0 rest)
    {cs : List Char} (hcs : skipGap cs = skipGap (t.text ++ rest)) :
    Grammar.expression fuel cs = some (t.expr, rest) := by
  obtain ⟨fuel, rfl⟩ : ∃ n, fuel = n + 1 := ⟨fuel - 1, by omega⟩
  have hsigned := t.reads_signed (show t.text.length ≤ fuel by omega) (hrest.mono (by omega)) hcs
  exact Grammar.chain_of_tail (Grammar.chain_of_tail hsigned (hrest.product (by omega)) fuel)
    (hrest.sum rfl) fuel

/-- A tower is read as an expression. -/
theorem reads (t : Tower) (hlen : t.text.length < fuel) :
    Layout.Reads (Grammar.expression fuel) 0 t.text t.expr :=
  fun _ hrest => t.expression_eq hlen hrest rfl

/-- The assignment of a tower to a variable is read. -/
theorem parse_assign (t : Tower) {name : String} (hname : isPlainName name) :
    parse (name.toList ++ '=' :: t.text) = .ok (.assign name t.expr) := by
  have hread : Grammar.expression ((name.toList ++ '=' :: t.text).length + 1) (skipGap t.text) =
      some (t.expr, []) := by
    refine t.expression_eq ?_ (Layout.follows_of_stops stops_nil 0) ?_
    · simp only [List.length_append, List.length_cons]
      omega
    · rw [skipGap_eq_self (solid_skipGap _), List.append_nil]
  have hword : spaced Word.name (name.toList ++ '=' :: t.text) = some (name, '=' :: t.text) := by
    refine spaced_eq_some (Grammar.solid_name hname _) (Word.name_append hname ?_)
      (solid_cons (by decide) _)
    rintro _ ⟨⟩
    decide
  have hequals : Grammar.equals ('=' :: t.text) = some ((), skipGap t.text) := by
    rw [Grammar.equals, spaced, skipGap_eq_self (solid_cons (by decide) _)]
    simp [orElse, after, char]
  apply parse_eq_ok
  rw [Grammar.statement, orElse, Grammar.assignment, hword]
  simp only [hequals, hread, Option.bind_eq_bind, Option.bind_some, Option.pure_def]

/-! ## Values of towers -/

section Values

variable (pow : Float → Float → Float) (vars : Variables)

theorem evalBy_operand (s : Storey) : s.operand.evalBy pow vars = (do
    let x ← s.base.evalBy pow vars
    return withSign s.minus x) := by
  unfold Storey.operand
  cases s.minus with
  | true => rfl
  | false => cases h : s.base.evalBy pow vars <;> simp [h, withSign]

/-- The operands behind the first have the value in which each minus sign negates its operand. -/
theorem evalPower_map (s : Storey) (rest : List Storey) :
    Expr.evalPower pow vars ((s :: rest).map Storey.operand) = s.tight pow vars rest := by
  induction rest generalizing s with
  | nil => exact evalBy_operand pow vars s
  | cons t rest ih =>
    have heval : Expr.evalPower pow vars ((s :: t :: rest).map Storey.operand) = (do
        let y ← Expr.evalPower pow vars ((t :: rest).map Storey.operand)
        let x ← s.operand.evalBy pow vars
        return pow x y) := rfl
    rw [heval, ih, evalBy_operand, Storey.tight]
    simp only [bind_assoc, pure_bind]

theorem evalBy_expr (t : Tower) : t.expr.evalBy pow vars = t.value pow vars := by
  obtain ⟨first, rest⟩ := t
  cases rest with
  | nil => exact evalBy_operand pow vars first
  | cons s rest =>
    have hunsigned : (Tower.mk first (s :: rest)).unsigned.evalBy pow vars = (do
        let y ← Expr.evalPower pow vars ((s :: rest).map Storey.operand)
        let x ← first.base.evalBy pow vars
        return pow x y) := rfl
    rw [evalPower_map] at hunsigned
    unfold expr
    cases hminus : first.minus with
    | true =>
      show ((Tower.mk first (s :: rest)).unsigned.evalBy pow vars >>= fun x => pure (-x)) = _
      rw [hunsigned]
      simp [value, hminus, withSign]
    | false =>
      show (Tower.mk first (s :: rest)).unsigned.evalBy pow vars = _
      rw [hunsigned]
      simp [value, hminus, withSign]

/-- Where no minus sign stands between the first operand and the last, it makes no difference how
much a minus sign negates. -/
theorem tight_eq_loose (s : Storey) (rest : List Storey)
    (h : ∀ t ∈ (s :: rest).dropLast, t.minus = false) :
    s.tight pow vars rest = s.loose pow vars rest := by
  induction rest generalizing s with
  | nil => rfl
  | cons t rest ih =>
    rw [List.dropLast_cons_of_ne_nil (List.cons_ne_nil _ _), List.forall_mem_cons] at h
    rw [Storey.tight, Storey.loose, ih t h.2, h.1]
    rfl

theorem value_eq_loose (t : Tower) (h : ∀ s ∈ t.rest.dropLast, s.minus = false) :
    t.value pow vars = t.loose pow vars := by
  obtain ⟨first, rest⟩ := t
  cases rest with
  | nil => rfl
  | cons s rest =>
    have htight := tight_eq_loose pow vars s rest h
    simp only [value, loose, Storey.loose, htight]

end Values

end Tower

/-- A tower is read, wherever an expression may stand, as an expression with the value of the tower:
its first minus sign negates all of it, and each other negates its operand alone. If no minus sign
stands between the first operand and the last, this is the value in which every minus sign negates
all that stands behind it. -/
theorem read_tower (t : Tower) : ∃ e,
    (∀ fuel, t.text.length < fuel → Layout.Reads (Grammar.expression fuel) 0 t.text e) ∧
    (∀ name, isPlainName name → parse (name.toList ++ '=' :: t.text) = .ok (.assign name e)) ∧
    ∀ pow vars, e.evalBy pow vars = t.value pow vars ∧
      ((∀ s ∈ t.rest.dropLast, s.minus = false) → e.evalBy pow vars = t.loose pow vars) := by
  refine ⟨t.expr, fun fuel => t.reads, fun name => t.parse_assign, fun pow vars => ?_⟩
  have hvalue := t.evalBy_expr pow vars
  exact ⟨hvalue, fun h => hvalue.trans (t.value_eq_loose pow vars h)⟩

/-- The layout without gaps. -/
def tightLayout : Layout :=
  Layout.deck [] gap_nil false false

theorem expressible_sum : (Expr.chain (.var "C") [(.add, .number 1)]).Expressible := by
  refine .chain (List.cons_ne_nil _ _)
    (show ∀ o ∈ [(Op.add, Expr.number 1)], o.1.strength = 0 by simp [Op.strength])
    (.var (by decide)) ?_
  simpa using Expr.Expressible.number ⟨by decide +kernel, by decide +kernel⟩

/-- A tower whose first and last operands have minus signs. -/
def signedTower : Tower where
  first := .ofExpr tightLayout false true (e := .var "A") (.var (by decide))
  rest := [.ofExpr tightLayout false false (e := .var "B") (.var (by decide)),
    .ofExpr tightLayout true true expressible_sum]

theorem read_tower_signed : String.ofList signedTower.text = "-A^B**-(C+1)" ∧
    ∃ e, parse ("X".toList ++ '=' :: signedTower.text) = .ok (.assign "X" e) ∧
      ∀ vars, e.eval vars = signedTower.value Float.pow vars ∧
        e.eval vars = signedTower.loose Float.pow vars := by
  refine ⟨by decide +kernel, ?_⟩
  obtain ⟨e, -, hparse, hvalue⟩ := read_tower signedTower
  refine ⟨e, hparse "X" (by decide), fun vars => ?_⟩
  obtain ⟨htight, hloose⟩ := hvalue Float.pow vars
  exact ⟨htight, hloose (by simp [signedTower, Storey.ofExpr])⟩

/-- Some powers of two and of minus two are what they are. -/
structure KnowsPowers (pow : Float → Float → Float) : Prop where
  two_two : pow 2 2 = 4
  neg_two_two : pow (-2) 2 = 4
  two_four : pow 2 4 = 16
  two_neg_four : pow 2 (-4) = 0.0625

/-- The operand `2` of a tower. -/
def two (minus : Bool) : Storey :=
  .ofExpr tightLayout false minus (e := .number 2) (.number ⟨by decide +kernel, by decide +kernel⟩)

/-- The tower `2^-2^2`, whose minus sign stands between its first operand and its last. -/
def squareTower : Tower :=
  ⟨two false, [two true, two false]⟩

example : String.ofList squareTower.text = "2^-2^2" := by
  decide +kernel

theorem value_squareTower {pow : Float → Float → Float} (h : KnowsPowers pow) (vars : Variables) :
    squareTower.value pow vars = .ok 16 := by
  have heq : squareTower.value pow vars = .ok (pow 2 (pow (-2) 2)) := rfl
  rw [heq, h.neg_two_two, h.two_four]

theorem loose_squareTower {pow : Float → Float → Float} (h : KnowsPowers pow) (vars : Variables) :
    squareTower.loose pow vars = .ok 0.0625 := by
  have heq : squareTower.loose pow vars = .ok (pow 2 (-pow 2 2)) := rfl
  rw [heq, h.two_two, h.two_neg_four]

/-- Not every minus sign in a tower negates all that stands behind it: with no function that takes
these powers of two as they are, and there is one, has `2^-2^2` the value of `2^(-(2^2))`. -/
theorem not_loose : (∃ pow, KnowsPowers pow) ∧
    ¬ ∃ pow, KnowsPowers pow ∧ ∀ (t : Tower) (name : String) (e : Expr), isPlainName name →
      parse (name.toList ++ '=' :: t.text) = .ok (.assign name e) →
        ∀ vars, e.evalBy pow vars = t.loose pow vars := by
  constructor
  · refine ⟨fun x y => if y = 4 then 16 else if y = -4 then 0.0625 else 4, ?_⟩
    constructor <;> decide +kernel
  · rintro ⟨pow, hpow, h⟩
    have hvalue := h squareTower "X" squareTower.expr (by decide)
      (squareTower.parse_assign (by decide)) []
    rw [squareTower.evalBy_expr, value_squareTower hpow, loose_squareTower hpow] at hvalue
    exact absurd (Except.ok.inj hvalue) (by decide +kernel)

end Beamline.Deck

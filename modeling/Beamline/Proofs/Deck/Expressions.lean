import Beamline.Proofs.Deck.Grammar
import Beamline.Proofs.Deck.Layout

/-!
# Expressions that read back

An expression that is written with brackets where they are needed is read as that expression.

* `Opens`, `Follows` : what an operand starts with, and what may stand behind it;
* `Reads` : a scanner reads a text up to what may stand behind it;
* `reads_atom`, `reads_power`, `reads_signed`, `reads_chain` : operands read back at each level, if
  the expressions in their brackets do;
* `reads_expression` : expressions read back.
-/

namespace Beamline.Deck

open Text Text.Scanner Grammar

namespace Layout

variable {l : Layout} {level fuel : Nat} {cs rest : List Char} {e : Expr}

/-! ## What an operand starts with -/

/-- The characters that an expression can start with. -/
def isOpening (c : Char) : Bool :=
  c.isDigit || isPlainStart c || c == '.' || c == '(' || c == '-'

/-- The text starts as expressions do, and without a minus sign where powers are asked for. -/
def Opens (level : Nat) (cs : List Char) : Prop :=
  ∃ c rest, cs = c :: rest ∧ isOpening c ∧ (3 ≤ level → c ≠ '-')

theorem Opens.append (h : Opens level cs) (rest : List Char) : Opens level (cs ++ rest) := by
  obtain ⟨c, cs, rfl, hc⟩ := h
  exact ⟨c, cs ++ rest, rfl, hc⟩

theorem Opens.mono {level' : Nat} (h : Opens level cs) (hle : level' ≤ level) :
    Opens level' cs := by
  obtain ⟨c, cs, rfl, hc, hminus⟩ := h
  exact ⟨c, cs, rfl, hc, fun h => hminus (by omega)⟩

theorem Opens.solid (h : Opens level cs) (rest : List Char) : Solid (cs ++ rest) := by
  obtain ⟨c, cs, rfl, hc, -⟩ := h
  exact solid_cons (isGap_eq_false (by simp [isOpening, isPlainStart]) hc) _

theorem Opens.length_pos (h : Opens level cs) : 0 < cs.length := by
  obtain ⟨c, cs, rfl, -⟩ := h
  simp

/-- An expression does not start with a character that none can start with. -/
theorem Opens.head_ne {c : Char} (h : Opens level cs) (hc : isOpening c = false)
    (rest : List Char) : ∀ d ∈ (cs ++ rest).head?, d ≠ c := by
  obtain ⟨a, cs, rfl, ha, -⟩ := h
  rintro _ ⟨⟩
  exact ne_of_test ha hc

theorem Opens.head_ne_minus (h : Opens 3 cs) (rest : List Char) :
    ∀ d ∈ (cs ++ rest).head?, d ≠ '-' := by
  obtain ⟨a, cs, rfl, -, hminus⟩ := h
  rintro _ ⟨⟩
  exact hminus le_rfl

theorem sumOp_eq_none (hplus : ∀ d ∈ cs.head?, d ≠ '+') (hminus : ∀ d ∈ cs.head?, d ≠ '-') :
    sumOp cs = none := by
  unfold sumOp
  split
  · exact absurd rfl (hplus '+' rfl)
  · exact absurd rfl (hminus '-' rfl)
  · rfl

theorem Opens.sumOp_eq_none (h : Opens 3 cs) (rest : List Char) :
    spaced sumOp (cs ++ rest) = none :=
  spaced_eq_none (h.solid rest)
    (Layout.sumOp_eq_none (h.head_ne (by decide) rest) (h.head_ne_minus rest))

theorem opens_bracketed (level : Nat) (cs : List Char) : Opens level (l.bracketed cs) :=
  ⟨'(', _, rfl, by decide, fun _ => by decide⟩

theorem opens_name {s : String} (hs : isPlainName s) (level : Nat) : Opens level s.toList := by
  obtain ⟨c, cs, h, hc, -⟩ := isPlainName_iff.1 hs
  refine ⟨c, cs, h, by simp [isOpening, hc], fun _ => ?_⟩
  exact ne_of_test hc (by decide)

theorem opens_numeral {x : Float} (hx : IsMagnitude x) (level : Nat) :
    Opens level (l.numeral x) := by
  obtain ⟨c, cs, h, hc⟩ := (l.spells x hx).head
  refine ⟨c, cs, h, ?_, fun _ => ?_⟩
  · rcases hc with hc | rfl
    · simp [isOpening, hc]
    · decide
  · rcases hc with hc | rfl
    · exact ne_of_test hc (by decide)
    · decide

theorem opens_operand_of (h : ∀ k ≤ e.strength, Opens k (l.expr e)) (level : Nat) :
    Opens level (l.operand level e) := by
  unfold operand guarded
  split_ifs with hlt
  · exact opens_bracketed _ _
  · exact h level (by omega)

/-- The text of an expression opens at every level up to its own. -/
theorem opens_expr (he : e.Expressible) : ∀ level ≤ e.strength, Opens level (l.expr e) := by
  induction he with
  | number hx => exact fun level _ => (opens_numeral hx level).append _
  | var hname => exact fun level _ => (opens_name hname level).append _
  | call hname _ _ => exact fun level _ => ((opens_name hname level).append _).append _
  | neg _ _ =>
    intro level hlevel
    have hlevel : level ≤ 2 := hlevel
    exact ⟨'-', _, rfl, by decide, by omega⟩
  | chain _ _ _ _ ih _ =>
    intro level hlevel
    exact ((opens_operand_of ih _).append _).mono (Nat.le_succ_of_le hlevel)
  | power _ _ _ ih _ =>
    intro level hlevel
    exact ((opens_operand_of ih 4).append _).mono (Nat.le_succ_of_le hlevel)

theorem opens_operand (he : e.Expressible) (level : Nat) : Opens level (l.operand level e) :=
  opens_operand_of (opens_expr he) level

theorem opens_expr_zero (he : e.Expressible) : Opens 0 (l.expr e) :=
  opens_expr he 0 (Nat.zero_le _)

/-! ## Gaps -/

/-- What starts behind a gap starts with a blank, or there is none. -/
theorem head_gap {P : Char → Prop} (hgap : ∀ c, isGap c → P c) (h : ∀ c ∈ rest.head?, P c) :
    ∀ c ∈ (l.gap ++ rest).head?, P c := by
  intro c hc
  cases hl : l.gap with
  | nil =>
    rw [hl, List.nil_append] at hc
    exact h c hc
  | cons d ds =>
    rw [hl] at hc
    cases hc
    exact hgap c (l.gapped c (by simp [hl]))

/-- No word goes on with a blank, nor does a number. -/
theorem isGap_breaks {c : Char} (h : isGap c) : Word.isNameRest c = false ∧
    c.isDigit = false ∧ c ≠ '.' ∧ c ≠ 'e' ∧ c ≠ 'E' := by
  simp only [isGap, Bool.or_eq_true, beq_iff_eq] at h
  rcases h with ((rfl | rfl) | rfl) | rfl <;> decide

theorem ends_gap_cons {c : Char} (hc : Word.isNameRest c = false) (rest : List Char) :
    Word.Ends (l.gap ++ c :: rest) :=
  head_gap (fun _ h => (isGap_breaks h).1) (by rintro _ ⟨⟩; exact hc)

/-! ## What may stand behind an operand -/

/-- The characters that may stand behind an operand. -/
def IsEnding (c : Char) : Prop :=
  c = ',' ∨ c = ')' ∨ c = '}' ∨ c = '+' ∨ c = '-' ∨ c = '*' ∨ c = '/' ∨ c = '^'

theorem isEnding_breaks {c : Char} (h : IsEnding c) : Word.isNameRest c = false ∧
    c.isDigit = false ∧ c ≠ '.' ∧ c ≠ 'e' ∧ c ≠ 'E' := by
  rcases h with rfl | rfl | rfl | rfl | rfl | rfl | rfl | rfl <;> decide

/-- An operand that is bound with `level` ends here: behind it stands nothing, the end of what it
is in, or an operator that binds less tightly. -/
structure Follows (level : Nat) (rest : List Char) : Prop where
  head : ∀ c ∈ rest.head?, IsEnding c
  caret : level ≤ 3 → spaced Grammar.caret rest = none
  product : level ≤ 1 → spaced productOp rest = none
  sum : level = 0 → spaced sumOp rest = none

theorem follows_of_stops (h : Stops rest) (level : Nat) : Follows level rest where
  head := by
    intro c hc
    rcases h c hc with rfl | rfl | rfl <;> simp [IsEnding]
  caret _ := h.caret_eq_none
  product _ := h.productOp_eq_none
  sum _ := h.sumOp_eq_none

namespace Follows

theorem mono {level' : Nat} (h : Follows level rest) (hle : level ≤ level') :
    Follows level' rest where
  head := h.head
  caret hlevel := h.caret (by omega)
  product hlevel := h.product (by omega)
  sum hlevel := h.sum (by omega)

theorem solid (h : Follows level rest) : Solid rest := by
  intro c hc
  rcases h.head c hc with rfl | rfl | rfl | rfl | rfl | rfl | rfl | rfl <;> decide

theorem ends (h : Follows level rest) : Word.Ends (l.gap ++ rest) :=
  head_gap (fun _ hc => (isGap_breaks hc).1) fun c hc => (isEnding_breaks (h.head c hc)).1

theorem delimited (h : Follows level rest) : Json.Delimited (l.gap ++ rest) :=
  head_gap (fun _ hc => (isGap_breaks hc).2) fun c hc => (isEnding_breaks (h.head c hc)).2

theorem bracket (h : Follows level rest) : mark '(' (l.gap ++ rest) = none := by
  rw [mark, spaced_append l.gapped]
  refine mark_eq_none h.solid fun c hc => ?_
  rcases h.head c hc with rfl | rfl | rfl | rfl | rfl | rfl | rfl | rfl <;> decide

end Follows

/-! ## Words and signs -/

section Tokens

variable {α : Type} {p : Scanner α} {a : α}

theorem token_append (cs rest : List Char) : l.token cs ++ rest = cs ++ (l.gap ++ rest) :=
  List.append_assoc ..

/-- A scanner that reads a word up to the gap behind it reads it with the gap. -/
theorem spaced_token (hcs : Solid (l.token cs ++ rest))
    (h : p (cs ++ (l.gap ++ rest)) = some (a, l.gap ++ rest)) (hrest : Solid rest) :
    spaced p (l.token cs ++ rest) = some (a, rest) := by
  rw [token_append] at hcs ⊢
  unfold spaced
  rw [skipGap_eq_self hcs, h, Option.map_some]
  dsimp only
  rw [skipGap_append l.gapped, skipGap_eq_self hrest]

theorem mark_token {c : Char} (hc : isGap c = false) (hrest : Solid rest) :
    mark c (l.token [c] ++ rest) = some ((), rest) := by
  rw [token_append]
  exact mark_append hc l.gapped hrest

theorem spaced_name_token {s : String} (hs : isPlainName s) (hrest : Solid rest)
    (hends : Word.Ends (l.gap ++ rest)) :
    spaced Word.name (l.token s.toList ++ rest) = some (s, rest) := by
  refine spaced_token ?_ (Word.name_append hs hends) hrest
  rw [token_append]
  exact solid_name hs _

/-- What is read before a closing bracket is read in brackets. -/
theorem between_bracketed (hsolid : ∀ rest, Solid (cs ++ rest))
    (h : ∀ rest, p (cs ++ (l.token [')'] ++ rest)) = some (a, l.token [')'] ++ rest))
    (hrest : Solid rest) :
    between (mark '(') p (mark ')') (l.bracketed cs ++ rest) = some (a, rest) := by
  unfold bracketed between
  rw [List.append_assoc, List.append_assoc, after_eq (mark_token (by decide) (hsolid _))]
  simp only [before, h, mark_token (show isGap ')' = false by decide) hrest,
    Option.bind_eq_bind, Option.bind_some, Option.pure_def]

theorem stops_token {c : Char} (hc : c = ',' ∨ c = ')' ∨ c = '}') (rest : List Char) :
    Stops (l.token [c] ++ rest) :=
  stops_cons hc _

end Tokens

/-! ## Operands -/

/-- The scanner reads the text as `a` up to what may stand behind it. -/
def Reads {α : Type} (p : Scanner α) (level : Nat) (cs : List Char) (a : α) : Prop :=
  ∀ rest, Follows level rest → p (cs ++ rest) = some (a, rest)

section Operands

/-- Shorter expressions read back, those in the brackets of an operand. -/
def ReadsBelow (l : Layout) (fuel : Nat) : Prop :=
  ∀ e : Expr, e.Expressible → (l.expr e).length ≤ fuel →
    Reads (expression fuel) 0 (l.expr e) e

theorem length_bracketed (cs : List Char) : cs.length + 2 ≤ (l.bracketed cs).length := by
  simp only [bracketed, token, List.length_append, List.length_cons, List.length_nil]
  omega

/-- Expressions in brackets are read between them. -/
theorem between_expression (ih : ReadsBelow l fuel) (he : e.Expressible)
    (hlen : (l.bracketed (l.expr e)).length ≤ fuel + 1) (hrest : Solid rest) :
    between (mark '(') (expression fuel) (mark ')') (l.bracketed (l.expr e) ++ rest) =
      some (e, rest) := by
  have := length_bracketed (l := l) (l.expr e)
  refine between_bracketed (opens_expr_zero he).solid (fun rest => ?_) hrest
  exact ih e he (by omega) _ (follows_of_stops (stops_token (by simp) rest) 0)

theorem magnitude_bracketed (cs rest : List Char) :
    Word.magnitude (l.bracketed cs ++ rest) = none :=
  Word.magnitude_eq_none (by decide) (by decide) _

theorem magnitude_name {s : String} (hs : isPlainName s) (rest : List Char) :
    Word.magnitude (s.toList ++ rest) = none := by
  obtain ⟨c, cs, h, hc, -⟩ := isPlainName_iff.1 hs
  rw [h]
  exact Word.magnitude_eq_none (not_isDigit_of_isPlainStart hc) (ne_of_test hc (by decide)) _

theorem mark_name {s : String} (hs : isPlainName s) {c : Char} (hc : isPlainStart c = false)
    (rest : List Char) : mark c (s.toList ++ rest) = none := by
  refine mark_eq_none (solid_name hs rest) ?_
  obtain ⟨a, cs, h, ha, -⟩ := isPlainName_iff.1 hs
  rw [h]
  rintro _ ⟨⟩
  exact ne_of_test ha hc

theorem between_gap {α : Type} (p : Scanner α) (cs : List Char) :
    between (mark '(') p (mark ')') (l.gap ++ cs) = between (mark '(') p (mark ')') cs := by
  unfold between after mark
  rw [spaced_append l.gapped]

/-- What starts as a name is read as a variable or as a call. -/
theorem atom_name {s : String} (hs : isPlainName s) (inner : Scanner Expr)
    (hsolid : Solid (l.token s.toList ++ rest)) :
    atom inner (l.token s.toList ++ rest) = spaced (word inner) (l.token s.toList ++ rest) := by
  rw [token_append] at hsolid ⊢
  have hbracket : between (mark '(') inner (mark ')') (s.toList ++ (l.gap ++ rest)) = none :=
    after_eq_none (mark_name hs (by decide) _)
  unfold atom spaced
  rw [skipGap_eq_self hsolid, orElse, magnitude_name hs, Option.map_none, orElse, hbracket]

theorem reads_atom (ih : ReadsBelow l fuel) (he : e.Expressible)
    (hlen : (l.operand 4 e).length ≤ fuel + 1) :
    Reads (atom (expression fuel)) 4 (l.operand 4 e) e := by
  intro rest hrest
  have hsolid := (opens_operand (l := l) he 4).solid rest
  unfold operand guarded at hlen hsolid ⊢
  split_ifs at hlen hsolid ⊢ with hlt
  · refine spaced_eq_some hsolid ?_ hrest.solid
    rw [orElse, magnitude_bracketed, Option.map_none, orElse,
      between_expression ih he hlen hrest.solid]
  · cases he with
    | number hx =>
      refine spaced_token hsolid ?_ hrest.solid
      rw [orElse, (l.spells _ hx).read _ hrest.delimited, Option.map_some]
    | @var name hname =>
      have hnone : between (mark '(') (expression fuel) (mark ')') (l.gap ++ rest) = none :=
        after_eq_none hrest.bracket
      rw [expr, atom_name hname _ hsolid]
      refine spaced_token hsolid ?_ hrest.solid
      simp only [word, Word.name_append hname hrest.ends, hnone, Option.bind_eq_bind,
        Option.bind_some, Option.pure_def]
    | @call name argument hname hargument =>
      have hshort : (l.bracketed (l.expr argument)).length ≤ fuel + 1 := by
        rw [expr, List.length_append] at hlen
        omega
      have hends : Word.Ends (l.gap ++ (l.bracketed (l.expr argument) ++ rest)) :=
        ends_gap_cons (by decide) _
      have hsome := between_expression ih hargument hshort hrest.solid
      rw [expr, List.append_assoc] at hsolid ⊢
      rw [atom_name hname _ hsolid]
      refine spaced_eq_some hsolid ?_ hrest.solid
      rw [token_append]
      simp only [word, Word.name_append hname hends, between_gap, hsome, Option.bind_eq_bind,
        Option.bind_some, Option.pure_def]
    | neg _ => exact absurd (show (2 : Nat) < 4 by decide) hlt
    | @chain first rest k hne hstrength _ _ =>
      obtain ⟨o, ho⟩ := List.exists_mem_of_ne_nil rest hne
      have hle := o.1.strength_le
      rw [Expr.strength_chain hne hstrength, ← hstrength o ho] at hlt
      omega
    | power _ _ _ => exact absurd (show (3 : Nat) < 4 by decide) hlt

/-! ## Powers -/

theorem caret_eq (l : Layout) : l.caret = l.token ['*', '*'] ∨ l.caret = l.token ['^'] := by
  unfold caret
  split_ifs
  · exact .inl rfl
  · exact .inr rfl

theorem spaced_caret (hrest : Solid rest) :
    spaced Grammar.caret (l.caret ++ rest) = some ((), rest) := by
  rcases caret_eq l with h | h
  · rw [h]
    exact spaced_token (solid_cons (by decide) _) rfl hrest
  · rw [h]
    exact spaced_token (solid_cons (by decide) _) rfl hrest

theorem raised_eq_cons (e : Expr) : ∃ c cs, l.raised e = c :: cs ∧ IsEnding c := by
  unfold raised
  rcases caret_eq l with h | h
  · rw [h]
    exact ⟨'*', _, rfl, by simp [IsEnding]⟩
  · rw [h]
    exact ⟨'^', _, rfl, by simp [IsEnding]⟩

theorem raised_length_pos (e : Expr) : 0 < (l.raised e).length := by
  obtain ⟨c, cs, h, -⟩ := raised_eq_cons (l := l) e
  rw [h]
  exact Nat.succ_pos _

/-- Operands that stand alone end where the sign of powers does. -/
theorem follows_raised (e : Expr) (rest : List Char) : Follows 4 (l.raised e ++ rest) where
  head := by
    obtain ⟨c, cs, h, hc⟩ := raised_eq_cons (l := l) e
    rw [h]
    rintro _ ⟨⟩
    exact hc
  caret := by omega
  product := by omega
  sum := by omega

theorem exponent_neg (e : Expr) : l.exponent (.neg e) = l.token ['-'] ++ l.operand 4 e :=
  rfl

theorem exponent_eq (h : ∀ x, e ≠ .neg x) : l.exponent e = l.operand 4 e := by
  cases e with
  | neg x => exact absurd rfl (h x)
  | _ => rfl

theorem reads_raised (ih : ReadsBelow l fuel) (he : e.Expressible)
    (hlen : (l.raised e).length ≤ fuel + 1) :
    Reads (exponentOperand (expression fuel)) 4 (l.raised e) e := by
  intro rest hrest
  rw [raised, List.length_append] at hlen
  rw [raised, List.append_assoc]
  by_cases hneg : ∃ x, e = .neg x
  · obtain ⟨x, rfl⟩ := hneg
    have hx : x.Expressible := by
      cases he
      assumption
    rw [exponent_neg, List.length_append] at hlen
    have hread := reads_atom ih hx (by omega) rest hrest
    have hsolid := (opens_operand (l := l) hx 4).solid rest
    have hminus := mark_token (l := l) (show isGap '-' = false by decide) hsolid
    have hfront : Solid (l.token ['-'] ++ (l.operand 4 x ++ rest)) := solid_cons (by decide) _
    rw [exponent_neg, List.append_assoc]
    simp [exponentOperand, spaced_caret hfront, opt, hminus, hread]
  · rw [exponent_eq fun x h => hneg ⟨x, h⟩] at hlen ⊢
    have hopens := opens_operand (l := l) he 4
    have hread := reads_atom ih he (by omega) rest hrest
    have hminus : mark '-' (l.operand 4 e ++ rest) = none :=
      mark_eq_none (hopens.solid rest) ((hopens.mono (by omega)).head_ne_minus rest)
    simp [exponentOperand, spaced_caret (hopens.solid rest), opt, hminus, hread]

theorem reads_power (ih : ReadsBelow l fuel) (he : e.Expressible)
    (hlen : (l.operand 3 e).length ≤ fuel + 1) :
    Reads (power (expression fuel) fuel) 3 (l.operand 3 e) e := by
  intro rest hrest
  have hend : exponentOperand (expression fuel) rest = none := by
    rw [exponentOperand, hrest.caret le_rfl]
    rfl
  by_cases hstrength : e.strength = 3
  · cases he with
    | @power first operands hne hfirst hoperands =>
      rw [operand_of_le l hstrength.ge, expr_power] at hlen ⊢
      rw [List.length_append] at hlen
      have hpos := (opens_operand (l := l) hfirst 4).length_pos
      have hread : ∀ x ∈ operands, Reads (exponentOperand (expression fuel)) 4 (l.raised x) x := by
        intro x hx
        have hshort := length_le_length_flatMap l.raised hx
        exact reads_raised ih (hoperands x hx) (by omega)
      have hroom : operands.length ≤ fuel := by
        have hcount : operands.length ≤ (operands.flatMap l.raised).length :=
          length_le_of_pos l.raised fun x _ => raised_length_pos x
        omega
      have hmany := many_flatMap_self hread (fun x _ => follows_raised x) (hrest.mono (by omega))
        hend hroom
      have hbehind : Follows 4 (operands.flatMap l.raised ++ rest) := by
        obtain ⟨x, operands, rfl⟩ := List.exists_cons_of_ne_nil hne
        rw [List.flatMap_cons, List.append_assoc]
        exact follows_raised x _
      have hfirst := reads_atom ih hfirst (by omega) _ hbehind
      rw [List.append_assoc, power, hfirst]
      simp [hmany, hne]
    | @chain first rest k hne hop _ _ =>
      have hle := Expr.strength_chain_le first rest
      omega
    | _ => cases hstrength
  · rw [operand_eq_succ l hstrength] at hlen ⊢
    rw [power, reads_atom ih he hlen rest (hrest.mono (by omega))]
    simp [many_eq_nil hend]

/-! ## Signs -/

theorem reads_signed (ih : ReadsBelow l fuel) (he : e.Expressible)
    (hlen : (l.operand 2 e).length ≤ fuel + 1) :
    Reads (signed (expression fuel) fuel) 2 (l.operand 2 e) e := by
  intro rest hrest
  by_cases hstrength : e.strength = 2
  · cases he with
    | @neg x hx =>
      have hopens := opens_operand (l := l) hx 3
      have htext : l.operand 2 (.neg x) = l.token ['-'] ++ l.operand 3 x :=
        operand_of_le l le_rfl
      rw [htext, List.length_append] at hlen
      have htoken : 0 < (l.token ['-']).length := Nat.succ_pos _
      have hpos := hopens.length_pos
      have hread := reads_power ih hx (by omega) rest (hrest.mono (by omega))
      have hminus : spaced sumOp (l.token ['-'] ++ (l.operand 3 x ++ rest)) =
          some (.sub, l.operand 3 x ++ rest) :=
        spaced_token (solid_cons (by decide) _) rfl (hopens.solid rest)
      obtain ⟨fuel, rfl⟩ : ∃ n, fuel = n + 1 := ⟨fuel - 1, by omega⟩
      rw [htext, List.append_assoc, signed, many, hminus]
      simp [many_eq_nil (hopens.sumOp_eq_none rest), hread]
    | @chain first rest _ _ _ _ _ =>
      have hle := Expr.strength_chain_le first rest
      omega
    | _ => cases hstrength
  · rw [operand_eq_succ l hstrength] at hlen ⊢
    have hopens := opens_operand (l := l) he 3
    have hread := reads_power ih he hlen rest (hrest.mono (by omega))
    rw [signed, many_eq_nil (hopens.sumOp_eq_none rest)]
    simp [hread]

/-! ## Chains -/

/-- An operator in front of an operand is read as it was written. A `*` stands alone there. -/
theorem sumOp_sign {op : Op} (h : op.strength = 0) (cs : List Char) :
    sumOp (op.sign :: cs) = some (op, cs) := by
  cases op <;> first | rfl | cases h

theorem productOp_sign {op : Op} (h : op.strength = 1) (hcs : ∀ c ∈ cs.head?, c ≠ '*') :
    productOp (op.sign :: cs) = some (op, cs) := by
  cases op with
  | mul =>
    unfold productOp Op.sign
    split
    · rename_i heq
      rw [(List.cons.inj heq).2] at hcs
      exact absurd rfl (hcs '*' rfl)
    · rename_i heq
      rw [(List.cons.inj heq).2]
    · rename_i heq
      exact absurd (List.cons.inj heq).1 (by decide)
    · rename_i h _
      exact absurd rfl (h _)
  | div => rfl
  | add => cases h
  | sub => cases h

theorem caret_sign (op : Op) (hcs : ∀ c ∈ cs.head?, c ≠ '*') :
    Grammar.caret (op.sign :: cs) = none := by
  cases op with
  | mul =>
    unfold Grammar.caret Op.sign
    split
    · rename_i heq
      rw [(List.cons.inj heq).2] at hcs
      exact absurd rfl (hcs '*' rfl)
    · rename_i heq
      exact absurd (List.cons.inj heq).1 (by decide)
    · rfl
  | _ => rfl

/-- No operand starts with an asterisk. -/
theorem head_ne_star (he : e.Expressible) (level : Nat) (rest : List Char) :
    ∀ c ∈ (l.gap ++ (l.operand level e ++ rest)).head?, c ≠ '*' := by
  refine head_gap ?_ ((opens_operand he level).head_ne (by decide) rest)
  intro c hc
  exact ne_of_test hc (by decide)

/-- Operands that are bound more tightly than an operator end where it stands. -/
theorem follows_joined {k : Nat} {o : Op × Expr} (ho : o.1.strength = k) (he : o.2.Expressible)
    (rest : List Char) : Follows (k + 1) (l.joined (k + 1) o ++ rest) := by
  obtain ⟨op, e⟩ := o
  have ho : op.strength = k := ho
  have hstar := head_ne_star (l := l) he (k + 1) rest
  have hgap : isGap op.sign = false := by cases op <;> decide
  rw [joined, List.append_assoc, token_append]
  refine ⟨?_, fun _ => ?_, fun hlevel => ?_, by omega⟩
  · rintro _ ⟨⟩
    cases op <;> simp [IsEnding, Op.sign]
  · exact spaced_eq_none (solid_cons hgap _) (caret_sign op hstar)
  · refine spaced_eq_none (solid_cons hgap _) ?_
    have hk : op.strength = 0 := by omega
    cases op with
    | add => rfl
    | sub => rfl
    | mul => cases hk
    | div => cases hk

section Chains

variable {op : Scanner Op} {p : Scanner Expr} {k : Nat}

/-- The scanner reads the signs of operators of one strength, where no second asterisk follows. -/
def ReadsSigns (op : Scanner Op) (k : Nat) : Prop :=
  ∀ o : Op, o.strength = k → ∀ cs : List Char, (∀ c ∈ cs.head?, c ≠ '*') →
    op (o.sign :: cs) = some (o, cs)

/-- An operator and its operand read back, if the operand does. -/
theorem reads_joined (hsign : ReadsSigns op k) {o : Op × Expr} (ho : o.1.strength = k)
    (he : o.2.Expressible) (hread : Reads p (k + 1) (l.operand (k + 1) o.2) o.2) :
    Reads (tail op p) (k + 1) (l.joined (k + 1) o) o := by
  intro rest hrest
  have hsolid := (opens_operand (l := l) he (k + 1)).solid rest
  have hgap : isGap o.1.sign = false := by cases o.1 <;> decide
  have hop : spaced op (l.token [o.1.sign] ++ (l.operand (k + 1) o.2 ++ rest)) =
      some (o.1, l.operand (k + 1) o.2 ++ rest) :=
    spaced_token (solid_cons hgap _) (hsign o.1 ho _ (head_ne_star he _ rest)) hsolid
  rw [joined, List.append_assoc, tail, hop]
  simp [hread rest hrest]

/-- A chain of operators of one strength reads back, if its operands do. -/
theorem reads_chain (hk : k ≤ 1) (hsign : ReadsSigns op k)
    (hend : ∀ rest, Follows k rest → spaced op rest = none)
    (hread : ∀ e : Expr, e.Expressible → (l.operand (k + 1) e).length ≤ fuel + 1 →
      Reads p (k + 1) (l.operand (k + 1) e) e)
    (he : e.Expressible) (hlen : (l.operand k e).length ≤ fuel + 1) :
    Reads (chain op p fuel) k (l.operand k e) e := by
  intro rest hrest
  by_cases hstrength : e.strength = k
  · cases he with
    | @chain first tails k' hne hop hfirst htails =>
      obtain rfl : k' = k := (Expr.strength_chain hne hop).symm.trans hstrength
      rw [operand_of_le l hstrength.ge, expr_chain l hstrength] at hlen ⊢
      rw [List.length_append] at hlen
      have hpos := (opens_operand (l := l) hfirst (k' + 1)).length_pos
      have htail : ∀ o ∈ tails, Reads (tail op p) (k' + 1) (l.joined (k' + 1) o) o := by
        intro o ho
        have hshort := length_le_length_flatMap (l.joined (k' + 1)) ho
        rw [joined, List.length_append] at hshort
        exact reads_joined hsign (hop o ho) (htails o ho) (hread o.2 (htails o ho) (by omega))
      have hroom : tails.length ≤ fuel := by
        have hcount : tails.length ≤ (tails.flatMap (l.joined (k' + 1))).length :=
          length_le_of_pos (l.joined (k' + 1)) fun o _ => Nat.succ_pos _
        omega
      have hnone : tail op p rest = none := by
        rw [tail, hend rest hrest]
        rfl
      have hfollows : ∀ o ∈ tails, ∀ rest, Follows (k' + 1) (l.joined (k' + 1) o ++ rest) :=
        fun o ho => follows_joined (hop o ho) (htails o ho)
      have hmany := many_flatMap_self htail hfollows (hrest.mono (by omega)) hnone hroom
      have hbehind : Follows (k' + 1) (tails.flatMap (l.joined (k' + 1)) ++ rest) := by
        obtain ⟨o, tails, rfl⟩ := List.exists_cons_of_ne_nil hne
        rw [List.flatMap_cons, List.append_assoc]
        exact hfollows o (by simp) _
      have hfirst := hread first hfirst (by omega) _ hbehind
      rw [List.append_assoc, chain, hfirst]
      simp [hmany, hne]
    | number _ => exact absurd (show (4 : Nat) = k from hstrength) (by omega)
    | var _ => exact absurd (show (4 : Nat) = k from hstrength) (by omega)
    | call _ _ => exact absurd (show (4 : Nat) = k from hstrength) (by omega)
    | neg _ => exact absurd (show (2 : Nat) = k from hstrength) (by omega)
    | power _ _ _ => exact absurd (show (3 : Nat) = k from hstrength) (by omega)
  · rw [operand_eq_succ l hstrength] at hlen ⊢
    exact chain_of_tail (hread e he hlen rest (hrest.mono (by omega))) (hend rest hrest) fuel

end Chains

/-- Expressions read back. -/
theorem reads_expression (fuel : Nat) : ReadsBelow l fuel := by
  induction fuel with
  | zero =>
    intro e he hlen
    have := (opens_expr_zero (l := l) he).length_pos
    omega
  | succ fuel ih =>
    have hproduct : ∀ e : Expr, e.Expressible → (l.operand 1 e).length ≤ fuel + 1 →
        Reads (chain productOp (signed (expression fuel) fuel) fuel) 1 (l.operand 1 e) e :=
      fun e he hlen => reads_chain (by omega) (fun o ho cs hcs => productOp_sign ho hcs)
        (fun rest hrest => hrest.product le_rfl) (fun e he hlen => reads_signed ih he hlen) he hlen
    intro e he hlen
    rw [← operand_of_le l (Nat.zero_le e.strength)] at hlen ⊢
    exact reads_chain (by omega) (fun o ho cs _ => sumOp_sign ho cs)
      (fun rest hrest => hrest.sum rfl) hproduct he hlen

end Operands

end Layout

end Beamline.Deck

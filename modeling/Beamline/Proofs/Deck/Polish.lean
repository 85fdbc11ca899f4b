import Beamline.Proofs.Bind
import Beamline.Proofs.Deck.Expressions

/-!
# Infix and postfix

An expression in reverse Polish notation has its operands in front of their operator. Where no
variable is called like a word of that notation, it has the same value.

* `IsReserved` : the words that have a meaning of their own in postfix expressions;
* `Expr.Calculable` : expressions that can be written there;
* `Expr.pieces` : the pieces of an expression, operands first, and `Layout.polish`, their text;
* `Postfix.tokens_polish` : the pieces are read from the text;
* `Postfix.carry_pieces` : carried out they push the value of the expression on the stack, and leave
  alone what lies below it;
* `Postfix.run_polish` : the text has the value that the expression has, and changes no variable.
-/

namespace Beamline.Deck

open Text Text.Scanner

/-- The words that have a meaning of their own in postfix expressions. -/
def IsReserved (name : String) : Prop :=
  name = "CHS" ∨ name = "STO" ∨ (function? name).isSome

instance : DecidablePred IsReserved :=
  fun _ => inferInstanceAs (Decidable (_ ∨ _))

/-- Expressions over finite numbers, the functions that every deck knows, and variables that are not
called like one of the words of postfix expressions. -/
inductive Expr.Calculable : Expr → Prop where
  | number {x : Float} : x.isFinite → Calculable (.number x)
  | var {name : String} : isPlainName name → ¬ IsReserved name → Calculable (.var name)
  | call {function : String} {argument : Expr} : (function? function).isSome →
    Calculable argument → Calculable (.call function argument)
  | neg {e : Expr} : Calculable e → Calculable (.neg e)
  | chain {first : Expr} {rest : List (Op × Expr)} : Calculable first →
    (∀ o ∈ rest, Calculable o.2) → Calculable (.chain first rest)
  | power {operands : List Expr} : (∀ e ∈ operands, Calculable e) → Calculable (.power operands)

namespace Expr

mutual

/-- The pieces of an expression, operands in front of what is done with them. -/
def pieces : Expr → List Postfix.Token
  | .number x => [.number x]
  | .var name => [.word name]
  | .call function argument => pieces argument ++ [.word function]
  | .neg e => pieces e ++ [.word "CHS"]
  | .chain first rest => pieces first ++ chainPieces rest
  | .power operands => powerPieces operands

/-- The pieces of the operands of a chain behind the first, each in front of its operator. -/
def chainPieces : List (Op × Expr) → List Postfix.Token
  | [] => []
  | (op, e) :: rest => pieces e ++ .op op :: chainPieces rest

/-- The pieces of a chain of powers, its operators at the end, so that the last is taken first. -/
def powerPieces : List Expr → List Postfix.Token
  | [] => [.number 1]
  | [e] => pieces e
  | e :: rest => pieces e ++ (powerPieces rest ++ [.power])

end

end Expr

/-- The text of a piece. -/
def Layout.piece (l : Layout) : Postfix.Token → List Char
  | .number x => if x.abs = x then l.numeral x else '-' :: l.numeral x.abs
  | .store name => ['S', 'T', 'O'] ++ l.gap ++ name.toList
  | .op o => [o.sign]
  | .power => ['^']
  | .word name => name.toList

/-- The text of an expression in reverse Polish notation. -/
def Layout.polish (l : Layout) (e : Expr) : List Char :=
  l.gap ++ e.pieces.flatMap fun t => l.token (l.piece t)

namespace Postfix

variable {l : Layout} {vars : Variables} {text : String}

/-! ## The pieces in the text -/

/-- Pieces that the text of an expression has: finite numbers, operators, and words but `STO`. -/
inductive Plain : Token → Prop where
  | number {x : Float} : x.isFinite → Plain (.number x)
  | op (o : Op) : Plain (.op o)
  | power : Plain .power
  | word {name : String} : isPlainName name → name ≠ "STO" → Plain (.word name)

theorem isPlainName_of_function {name : String} (h : (function? name).isSome) :
    isPlainName name ∧ name ≠ "STO" := by
  unfold function? at h
  split at h <;> first | decide | cases h

section Operands

variable {P : Token → Prop}

theorem forall_chainPieces {rest : List (Op × Expr)} (h : ∀ o ∈ rest, ∀ t ∈ o.2.pieces, P t)
    (hop : ∀ op, P (.op op)) : ∀ t ∈ Expr.chainPieces rest, P t := by
  induction rest with
  | nil => exact fun t ht => absurd ht List.not_mem_nil
  | cons o rest ih =>
    rw [List.forall_mem_cons] at h
    obtain ⟨op, e⟩ := o
    rw [Expr.chainPieces, List.forall_mem_append, List.forall_mem_cons]
    exact ⟨h.1, hop op, ih h.2⟩

theorem forall_powerPieces {operands : List Expr} (h : ∀ e ∈ operands, ∀ t ∈ e.pieces, P t)
    (hone : P (.number 1)) (hpower : P .power) : ∀ t ∈ Expr.powerPieces operands, P t := by
  induction operands with
  | nil => exact List.forall_mem_singleton.2 hone
  | cons e rest ih =>
    rw [List.forall_mem_cons] at h
    cases rest with
    | nil => exact h.1
    | cons e' rest =>
      rw [Expr.powerPieces, List.forall_mem_append, List.forall_mem_append]
      · exact ⟨h.1, ih h.2, List.forall_mem_singleton.2 hpower⟩
      · exact List.cons_ne_nil _ _

end Operands

/-- Expressions have such pieces only, none of which stores a value. -/
theorem plain_pieces {e : Expr} (he : e.Calculable) : ∀ t ∈ e.pieces, Plain t := by
  induction he with
  | number hx => exact List.forall_mem_singleton.2 (.number hx)
  | var hname hfree =>
    exact List.forall_mem_singleton.2 (.word hname fun h => hfree (.inr (.inl h)))
  | call hfunction _ ih =>
    obtain ⟨hname, hne⟩ := isPlainName_of_function hfunction
    rw [Expr.pieces, List.forall_mem_append]
    exact ⟨ih, List.forall_mem_singleton.2 (.word hname hne)⟩
  | neg _ ih =>
    rw [Expr.pieces, List.forall_mem_append]
    exact ⟨ih, List.forall_mem_singleton.2 (.word (by decide) (by decide))⟩
  | chain _ _ ih ihrest =>
    rw [Expr.pieces, List.forall_mem_append]
    exact ⟨ih, forall_chainPieces ihrest .op⟩
  | power _ ih =>
    rw [Expr.pieces]
    exact forall_powerPieces ih (.number (by decide +kernel)) .power

/-! ### Pieces one by one -/

section Reading

variable {rest : List Char} {t : Token}

theorem gap_cons_of_ne_nil (hgap : l.gap ≠ []) : ∃ c cs, l.gap = c :: cs ∧ isGap c := by
  obtain ⟨c, cs, h⟩ := List.exists_cons_of_ne_nil hgap
  exact ⟨c, cs, h, l.gapped c (by simp [h])⟩

theorem number_eq_none {c : Char} (hdigit : c.isDigit = false) (hpoint : c ≠ '.') (hminus : c ≠ '-')
    (cs : List Char) : number (c :: cs) = none := by
  unfold number
  split
  · rename_i heq
    exact absurd (List.cons.inj heq).1 hminus
  · rw [Word.magnitude_eq_none hdigit hpoint, Option.map_none]

/-- Only the letters of `STO` start a store. -/
theorem store_eq_none {c : Char} (hc : c.toUpper ≠ 'S') (cs : List Char) :
    store (c :: cs) = none := by
  simp [store, upper, hc]

theorem number_numeral {x : Float} (hx : x.isFinite) (hrest : Json.Delimited rest) :
    number (l.piece (.number x) ++ rest) = some (.number x, rest) := by
  have habs : IsMagnitude x.abs := ⟨(Decimal.isFinite_abs x).trans hx, Decimal.abs_abs x⟩
  have hread := (l.spells _ habs).read rest hrest
  rw [Layout.piece]
  split_ifs with h
  · obtain ⟨c, cs, hcs, hc⟩ := (l.spells _ habs).head
    have hminus : c ≠ '-' := by
      rcases hc with hc | rfl
      · exact ne_of_test hc (by decide)
      · decide
    rw [h] at hread hcs
    rw [hcs, List.cons_append] at hread ⊢
    unfold number
    split
    · rename_i heq
      exact absurd (List.cons.inj heq).1 hminus
    · rw [hread, Option.map_some]
  · rw [List.cons_append, number, hread, Option.map_some]
    dsimp only
    rw [Decimal.neg_abs hx h]

theorem operator_sign (o : Op) (cs : List Char) : operator (o.sign :: cs) = some (.op o, cs) := by
  cases o <;> rfl

theorem operator_eq_none {c : Char} (hc : isPlainStart c) (cs : List Char) :
    operator (c :: cs) = none := by
  unfold operator
  split
  case h_6 => rfl
  all_goals
    rename_i heq
    exact absurd (List.cons.inj heq).1 (ne_of_test hc (by decide))

/-- A minus sign in front of a gap belongs to no number. -/
theorem number_sign (hgap : l.gap ≠ []) (o : Op) (rest : List Char) :
    number (o.sign :: (l.gap ++ rest)) = none := by
  obtain ⟨c, cs, h, hc⟩ := gap_cons_of_ne_nil hgap
  obtain ⟨-, hdigit, hpoint, -⟩ := Layout.isGap_breaks hc
  cases o with
  | sub =>
    show (Word.magnitude (l.gap ++ rest)).map _ = none
    rw [h, List.cons_append, Word.magnitude_eq_none hdigit hpoint, Option.map_none]
  | _ => exact number_eq_none (by decide) (by decide) (by decide) _

/-- No word but `STO` stores a value. -/
theorem store_word (hgap : l.gap ≠ []) {name : String} (hname : isPlainName name)
    (hne : name ≠ "STO") (rest : List Char) : store (name.toList ++ (l.gap ++ rest)) = none := by
  obtain ⟨g, gs, hl, hg⟩ := gap_cons_of_ne_nil hgap
  have hupper := upper_of_isPlainName hname
  have hplain := isPlainRest_of_mem hname
  have hsto : name.toList ≠ ['S', 'T', 'O'] := fun h =>
    hne (String.toList_inj.1 (h.trans (by decide)))
  have hblank : ∀ c, isPlainRest c → isGap c = false := fun c hc =>
    isGap_eq_false (by simp [isPlainRest]) hc
  have hgap : g.toUpper ≠ 'S' ∧ g.toUpper ≠ 'T' ∧ g.toUpper ≠ 'O' := by
    simp only [isGap, Bool.or_eq_true, beq_iff_eq] at hg
    rcases hg with ((rfl | rfl) | rfl) | rfl <;> decide
  rw [hl]
  -- the gap behind a name of three letters shows that the name ends there
  generalize name.toList = cs at hupper hplain hsto
  rcases cs with _ | ⟨a, _ | ⟨b, _ | ⟨c, _ | ⟨d, cs⟩⟩⟩⟩
  · simp [store, upper, hgap]
  · simp [store, upper, hgap]
  · simp [store, upper, hgap]
  · have hletters : upper [a, b, c] ≠ ['S', 'T', 'O'] := by rwa [hupper]
    simp [store, hletters]
  · have hd := hblank d (hplain d (by simp))
    simp [store, hd]

theorem token_piece (hgap : l.gap ≠ []) (ht : Plain t) (rest : List Char) :
    token (l.piece t ++ (l.gap ++ rest)) = some (t, l.gap ++ rest) := by
  obtain ⟨g, gs, hl, hg⟩ := gap_cons_of_ne_nil hgap
  obtain ⟨hname, hdelimited⟩ := Layout.isGap_breaks hg
  cases ht with
  | number hx =>
    have hdelimited : Json.Delimited (l.gap ++ rest) := by
      rw [hl]
      rintro _ ⟨⟩
      exact hdelimited
    rw [token, orElse, number_numeral hx hdelimited]
  | op o =>
    rw [Layout.piece, List.singleton_append, token, orElse, number_sign hgap, orElse,
      store_eq_none (by cases o <;> decide), orElse, operator_sign]
  | power =>
    rw [Layout.piece, List.singleton_append, token, orElse,
      number_eq_none (by decide) (by decide) (by decide), orElse, store_eq_none (by decide)]
    rfl
  | @word name hplain hne =>
    have hends : Word.Ends (l.gap ++ rest) := by
      rw [hl]
      rintro _ ⟨⟩
      exact hname
    have hstore := store_word hgap hplain hne rest
    have hread := Word.name_append hplain hends
    obtain ⟨c, cs, hcs, hc, -⟩ := isPlainName_iff.1 hplain
    have hnumber : number (name.toList ++ (l.gap ++ rest)) = none := by
      rw [hcs]
      exact number_eq_none (not_isDigit_of_isPlainStart hc) (ne_of_test hc (by decide))
        (ne_of_test hc (by decide)) _
    have hoperator : operator (name.toList ++ (l.gap ++ rest)) = none := by
      rw [hcs]
      exact operator_eq_none hc _
    rw [Layout.piece, token, orElse, hnumber, orElse, hstore, orElse, hoperator, word, hread,
      Option.map_some]

theorem solid_piece (ht : Plain t) (rest : List Char) : Solid (l.piece t ++ rest) := by
  cases ht with
  | @number x hx =>
    have habs : IsMagnitude x.abs := ⟨(Decimal.isFinite_abs x).trans hx, Decimal.abs_abs x⟩
    rw [Layout.piece]
    split_ifs with h
    · rw [h] at habs
      exact (Layout.opens_numeral habs 0).solid rest
    · exact solid_cons (by decide) _
  | op o => exact solid_cons (by cases o <;> decide) _
  | power => exact solid_cons (by decide) _
  | word hname _ => exact Grammar.solid_name hname rest

/-- The pieces of an expression are read from its text. -/
theorem tokens_polish (hgap : l.gap ≠ []) {e : Expr} (he : e.Calculable) :
    tokens (l.polish e) = (e.pieces, []) := by
  have hplain := plain_pieces he
  have hread : ∀ t ∈ e.pieces, ∀ rest, Solid rest →
      (token (l.token (l.piece t) ++ rest)).map (fun r => (r.1, skipGap r.2)) = some (t, rest) := by
    intro t ht rest hrest
    rw [Layout.token_append, token_piece hgap (hplain t ht), Option.map_some]
    dsimp only
    rw [skipGap_append l.gapped, skipGap_eq_self hrest]
  have hsolid : ∀ t ∈ e.pieces, ∀ rest, Solid (l.token (l.piece t) ++ rest) := by
    intro t ht rest
    rw [Layout.token_append]
    exact solid_piece (hplain t ht) _
  have hsolid_all : Solid (e.pieces.flatMap fun t => l.token (l.piece t)) := by
    cases hpieces : e.pieces with
    | nil => exact solid_nil
    | cons t ts => exact hsolid t (by simp [hpieces]) _
  have hroom : e.pieces.length ≤ (l.polish e).length := by
    have hpos : e.pieces.length ≤ (e.pieces.flatMap fun t => l.token (l.piece t)).length := by
      apply length_le_of_pos
      intro t _
      rw [Layout.token, List.length_append]
      exact Nat.add_pos_right _ (List.length_pos_of_ne_nil hgap)
    rw [Layout.polish, List.length_append]
    omega
  have hmany := many_flatMap_self (p := fun cs => (token cs).map fun r => (r.1, skipGap r.2)) hread
    hsolid solid_nil rfl hroom
  rw [List.append_nil] at hmany
  rw [tokens, Layout.polish, skipGap_append l.gapped, skipGap_eq_self hsolid_all]
  exact hmany

end Reading

/-! ## The pieces carried out -/

/-- The machine that some pieces leave, if they can be carried out. -/
def carry (text : String) (m : Machine) (ts : List Token) : Option Machine :=
  (ts.foldlM (Machine.step text) m).toOption

theorem toOption_bind {α β : Type} (x : Except Flaw α) (f : α → Except Flaw β) :
    (x >>= f).toOption = x.toOption.bind fun a => (f a).toOption := by
  cases x <;> rfl

theorem carry_cons (m : Machine) (t : Token) (ts : List Token) :
    carry text m (t :: ts) = (m.step text t).toOption.bind fun m => carry text m ts := by
  rw [carry, List.foldlM_cons, toOption_bind]
  rfl

/-- Whatever comes behind them, the pieces push the value, or cannot be carried out if there is
none. -/
def Pushes (vars : Variables) (ts : List Token) (value : Except Flaw Float) : Prop :=
  ∀ text stack us, carry text ⟨stack, vars⟩ (ts ++ us) =
    value.toOption.bind fun x => carry text ⟨x :: stack, vars⟩ us

variable {e : Expr}

theorem pushes_chain {rest : List (Op × Expr)}
    (h : ∀ o ∈ rest, Pushes vars o.2.pieces (o.2.evalBy Float.pow vars)) (x : Float)
    (stack : List Float) (us : List Token) :
    carry text ⟨x :: stack, vars⟩ (Expr.chainPieces rest ++ us) =
      (Expr.evalChain Float.pow vars x rest).toOption.bind fun y =>
        carry text ⟨y :: stack, vars⟩ us := by
  induction rest generalizing x with
  | nil => rfl
  | cons o rest ih =>
    rw [List.forall_mem_cons] at h
    obtain ⟨op, e⟩ := o
    rw [Expr.chainPieces, Expr.evalChain, List.append_assoc, List.cons_append, h.1, toOption_bind,
      Option.bind_assoc]
    refine congrArg _ (funext fun y => ?_)
    rw [← ih h.2, carry_cons]
    rfl

theorem pushes_power {operands : List Expr}
    (h : ∀ e ∈ operands, Pushes vars e.pieces (e.evalBy Float.pow vars)) :
    Pushes vars (Expr.powerPieces operands) (Expr.evalPower Float.pow vars operands) := by
  induction operands with
  | nil =>
    intro text stack us
    rfl
  | cons e rest ih =>
    rw [List.forall_mem_cons] at h
    cases rest with
    | nil => exact h.1
    | cons e' rest =>
      -- the base is pushed before the exponent, whose value is asked for first
      intro text stack us
      have hpieces : Expr.powerPieces (e :: e' :: rest) =
        e.pieces ++ (Expr.powerPieces (e' :: rest) ++ [.power]) := rfl
      have heval : Expr.evalPower Float.pow vars (e :: e' :: rest) =
          Expr.evalPower Float.pow vars (e' :: rest) >>= fun y =>
            e.evalBy Float.pow vars >>= fun x => .ok (x.pow y) := rfl
      rw [hpieces, heval, List.append_assoc, List.append_assoc, h.1, toOption_bind,
        Option.bind_assoc]
      simp only [ih h.2 text, toOption_bind, Option.bind_assoc]
      rw [Option.bind_comm]
      rfl

/-- The word of a function is no variable, and applies the function to the value on top. -/
theorem step_function (hvars : ∀ v ∈ vars, ¬ IsReserved v.1) {name : String}
    (hname : (function? name).isSome) (x : Float) (stack : List Float) :
    Machine.step text ⟨x :: stack, vars⟩ (.word name) =
      (apply name x).map fun y => ⟨y :: stack, vars⟩ := by
  have hchs : name ≠ "CHS" := by
    rintro rfl
    cases hname
  have hlookup : vars.lookup name = none := by
    rw [List.lookup_eq_none_iff]
    intro v hv
    rw [bne_iff_ne]
    rintro rfl
    exact hvars v hv (.inr (.inr hname))
  rw [Machine.step, if_neg hchs, hlookup]
  dsimp only
  cases apply name x <;> rfl

/-- The pieces of an expression push its value on the stack. -/
theorem pushes_pieces (hvars : ∀ v ∈ vars, ¬ IsReserved v.1) (he : e.Calculable) :
    Pushes vars e.pieces (e.evalBy Float.pow vars) := by
  induction he with
  | number _ =>
    intro text stack us
    rfl
  | @var name _ hfree =>
    intro text stack us
    have hchs : name ≠ "CHS" := fun h => hfree (.inl h)
    have hnone : function? name = none :=
      Option.not_isSome_iff_eq_none.1 fun h => hfree (.inr (.inr h))
    rw [Expr.pieces, Expr.evalBy, List.singleton_append, carry_cons, Machine.step, if_neg hchs]
    dsimp only
    cases vars.lookup name with
    | some x => rfl
    | none =>
      cases stack with
      | nil => rfl
      | cons x stack => simp [apply, hnone]; rfl
  | @call function argument hfunction _ ih =>
    intro text stack us
    rw [Expr.pieces, Expr.evalBy, List.append_assoc, ih, toOption_bind, Option.bind_assoc]
    refine congrArg _ (funext fun x => ?_)
    rw [List.singleton_append, carry_cons, step_function hvars hfunction]
    cases apply function x <;> rfl
  | neg _ ih =>
    intro text stack us
    rw [Expr.pieces, Expr.evalBy, List.append_assoc, ih, toOption_bind, Option.bind_assoc]
    rfl
  | chain _ _ ih ihrest =>
    intro text stack us
    rw [Expr.pieces, Expr.evalBy, List.append_assoc, ih, toOption_bind, Option.bind_assoc]
    exact congrArg _ (funext fun x => pushes_chain ihrest x stack us)
  | power _ ih =>
    rw [Expr.pieces, Expr.evalBy]
    exact pushes_power ih

/-- A piece that stores nothing leaves the variables as they are. -/
theorem Plain.vars_step {t : Token} (ht : Plain t) {m m' : Machine} (h : m.step text t = .ok m') :
    m'.vars = m.vars := by
  cases ht with
  | number _ =>
    cases h
    rfl
  | op o | power =>
    rw [Machine.step] at h
    split at h
    · cases h
      rfl
    · cases h
  | word _ _ =>
    rw [Machine.step] at h
    split at h
    · split at h
      · cases h
        rfl
      · cases h
    · split at h
      · cases h
        rfl
      · split at h
        · cases h
        · obtain ⟨y, -, h⟩ := bind_eq_ok.1 h
          cases h
          rfl

theorem vars_foldlM {ts : List Token} (hts : ∀ t ∈ ts, Plain t) {m m' : Machine}
    (h : ts.foldlM (Machine.step text) m = .ok m') : m'.vars = m.vars := by
  induction ts generalizing m with
  | nil =>
    cases h
    rfl
  | cons t ts ih =>
    rw [List.forall_mem_cons] at hts
    rw [List.foldlM_cons] at h
    obtain ⟨m₁, hstep, h⟩ := bind_eq_ok.1 h
    exact (ih hts.2 h).trans (hts.1.vars_step hstep)

/-- The text of an expression in reverse Polish notation has the value of the expression, and fails
if there is none, where no variable is called like a word of that notation. Either way no variable
changes: none after any number of its pieces, and none in the end. -/
theorem run_polish (hgap : l.gap ≠ []) (he : e.Calculable) (hvars : ∀ v ∈ vars, ¬ IsReserved v.1) :
    (run (l.polish e) vars).toOption = (e.eval vars).toOption.map (fun x => (x, vars)) ∧
    ∀ text ts m, ts <+: (tokens (l.polish e)).1 →
      ts.foldlM (Machine.step text) ⟨[], vars⟩ = .ok m → m.vars = vars := by
  rw [tokens_polish hgap he]
  refine ⟨?_, fun text ts m hts h => ?_⟩
  · have hpush := pushes_pieces hvars he (String.ofList (trim (l.polish e))) [] []
    rw [List.append_nil, carry] at hpush
    rw [run, tokens_polish hgap he]
    dsimp only
    rw [toOption_bind, hpush, Option.bind_assoc, Expr.eval]
    cases e.evalBy Float.pow vars <;> rfl
  · have hplain : ∀ t ∈ ts, Plain t := fun t ht => plain_pieces he t (hts.subset ht)
    exact vars_foldlM hplain h

/-- A quotient with a root, a difference, a power and a change of sign. -/
def root : Expr :=
  .chain (.call "SQRT" (.chain (.power [.var "B", .number 2])
    [(.sub, .chain (.number 4) [(.mul, .var "A"), (.mul, .var "C")])])) [(.div, .neg (.var "B"))]

def coefficients : Variables := [("A", 1), ("B", 3), ("C", 0.5)]

theorem run_polish_root :
    String.ofList ((Layout.deck [' '] (gap_replicate 1) false false).polish root) =
      " B 2 ^ 4 A * C * - SQRT B CHS / " ∧
    (run ((Layout.deck [' '] (gap_replicate 1) false false).polish root) coefficients).toOption =
      (root.eval coefficients).toOption.map (fun x => (x, coefficients)) := by
  have hroot : root.Calculable := by
    have hall : ∀ name ∈ ["A", "B", "C"], isPlainName name ∧ ¬ IsReserved name := by decide
    have hvar : ∀ name ∈ ["A", "B", "C"], (Expr.var name).Calculable :=
      fun name hname => .var (hall name hname).1 (hall name hname).2
    simp only [List.forall_mem_cons] at hvar
    obtain ⟨hA, hB, hC, -⟩ := hvar
    have htwo : (Expr.number 2).Calculable := .number (by decide +kernel)
    have hfour : (Expr.number 4).Calculable := .number (by decide +kernel)
    refine .chain (.call rfl (.chain (.power ?_) ?_)) ?_
    · simpa using ⟨hB, htwo⟩
    · simpa using Expr.Calculable.chain hfour (by simpa using ⟨hA, hC⟩)
    · simpa using Expr.Calculable.neg hB
  exact ⟨by decide +kernel, (run_polish (List.cons_ne_nil _ _) hroot (by decide)).1⟩

end Postfix

end Beamline.Deck

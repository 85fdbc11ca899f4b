import Beamline.Deck.Session
import Beamline.Proofs.Deck.RecasedWords

/-!
# Statements in other letters

* `Tracks.expression`, `lineItems`, `attributes` : what is read alike of texts that differ in the
  case of letters;
* `alike_arguments` : of the arguments of a command only the first is read with its quotation;
* `SameEffect`, `alike_statement` : the statements that such texts start with have the same effect;
* `parse_recased` : so have the statements that such clauses spell.
-/

namespace Beamline.Deck

open Text Grammar

variable {S : List Char → List Char → Prop}

/-- An item of a line behind its count and its sign. -/
def itemBehind (items : Scanner (List LineItem)) (count : Option Nat) (minus : Option Unit) :
    Scanner LineItem := fun cs =>
  match Scanner.between (Scanner.mark '(') items (Scanner.mark ')') cs with
  | some (items, cs) => some (.group (count.getD 1) minus.isSome items, cs)
  | none => (Scanner.spaced Word.name cs).map fun (n, cs) =>
    (.name (count.getD 1) minus.isSome n, cs)

theorem lineItem_eq (items : Scanner (List LineItem)) (cs : List Char) : lineItem items cs =
    itemBehind items (Scanner.opt repeatCount cs).1
      (Scanner.opt (Scanner.mark '-') (Scanner.opt repeatCount cs).2).1
      (Scanner.opt (Scanner.mark '-') (Scanner.opt repeatCount cs).2).2 :=
  rfl

namespace Tracks

/-! ## Expressions -/

theorem word (hS : Tracks S) {inner : Scanner Expr} (hinner : Alike S S Eq inner) :
    Alike S S Eq (Grammar.word inner) := by
  intro cs ds h
  refine hS.name.bind h fun f cs ds h => ?_
  have hcall := (hS.mark (k := '(') rfl rfl).between hinner (hS.mark (k := ')') rfl rfl) h
  dsimp only
  generalize Scanner.between _ inner _ cs = x, Scanner.between _ inner _ ds = y at hcall ⊢
  cases hcall with
  | fail => exact .read rfl h
  | read hab hrest => exact .read (congrArg _ hab) hrest

theorem atom (hS : Tracks S) {inner : Scanner Expr} (hinner : Alike S S Eq inner) :
    Alike S S Eq (Grammar.atom inner) :=
  hS.spaced hS ((hS.magnitude.map Expr.number).orElse
    (((hS.mark rfl rfl).between hinner (hS.mark rfl rfl)).orElse (hS.word hinner)))

theorem caret (hS : Tracks S) : Alike S S Eq Grammar.caret := by
  refine hS.ofMark (k := '*') rfl rfl (hS.char (k := '*') rfl rfl) (hS.char (k := '^') rfl rfl)
    (fun rest => ?_) fun cs hcs => ?_
  · cases rest with
    | nil => rfl
    | cons c rest => by_cases hc : c = '*' <;> simp [Grammar.caret, Scanner.char, hc]
  · cases cs with
    | nil => rfl
    | cons c cs =>
      have hstar : c ≠ '*' := fun hc => hcs cs (hc ▸ rfl)
      by_cases hc : c = '^' <;> simp [Grammar.caret, Scanner.char, hc, hstar]

theorem sumOp (hS : Tracks S) : Alike S S Eq Grammar.sumOp := by
  refine hS.ofMark (k := '+') rfl rfl (p := fun rest => some (.add, rest))
    (fun _ _ h => .read rfl h) ((hS.char (k := '-') rfl rfl).map fun _ => Op.sub) (fun _ => rfl)
    fun cs hcs => ?_
  cases cs with
  | nil => rfl
  | cons c cs =>
    by_cases hc : c = '-' <;> simp [Grammar.sumOp, Scanner.char, hc]

theorem productOp (hS : Tracks S) : Alike S S Eq Grammar.productOp := by
  have hstar : Alike S S Eq fun rest => Grammar.productOp ('*' :: rest) := by
    refine hS.ofMark (k := '*') rfl rfl (p := fun _ => none) (q := fun rest => some (.mul, rest))
      (fun _ _ _ => .fail) (fun _ _ h => .read rfl h) (fun _ => rfl) fun cs hcs => ?_
    cases cs with
    | nil => rfl
    | cons c cs => simp [Grammar.productOp]
  refine hS.ofMark (k := '*') rfl rfl hstar ((hS.char (k := '/') rfl rfl).map fun _ => Op.div)
    (fun _ => rfl) fun cs hcs => ?_
  cases cs with
  | nil => rfl
  | cons c cs =>
    have hstar : c ≠ '*' := fun hc => hcs cs (hc ▸ rfl)
    by_cases hc : c = '/' <;> simp [Grammar.productOp, Scanner.char, hc, hstar]

variable {inner : Scanner Expr}

theorem exponentOperand (hS : Tracks S) (hinner : Alike S S Eq inner) :
    Alike S S Eq (Grammar.exponentOperand inner) := by
  intro cs ds h
  refine (hS.spaced hS hS.caret).bind h fun _ cs ds h => ?_
  have hminus := (hS.mark (k := '-') rfl rfl).opt h
  refine (hS.atom hinner).bind hminus.2 fun e _ _ h => ?_
  exact .read (congrArg (fun m : Option Unit => if m.isSome then Expr.neg e else e) hminus.1) h

theorem power (hS : Tracks S) (hinner : Alike S S Eq inner) (fuel : Nat) :
    Alike S S Eq (Grammar.power inner fuel) := by
  intro cs ds h
  refine (hS.atom hinner).bind h fun first cs ds h => ?_
  have hrest := (hS.exponentOperand hinner).many fuel h
  exact .read (congrArg (fun rest : List Expr =>
    if rest.isEmpty then first else .power (first :: rest)) hrest.1) hrest.2

theorem signed (hS : Tracks S) (hinner : Alike S S Eq inner) (fuel : Nat) :
    Alike S S Eq (Grammar.signed inner fuel) := by
  intro cs ds h
  have hsigns := (hS.spaced hS hS.sumOp).many fuel h
  refine (hS.power hinner fuel).bind hsigns.2 fun e _ _ h => ?_
  exact .read (congrArg (fun signs : List Op =>
    if signs.count .sub % 2 = 1 then Expr.neg e else e) hsigns.1) h

theorem tail_alike (hS : Tracks S) {op : Scanner Op} {operand : Scanner Expr}
    (hop : Alike S S Eq op) (hoperand : Alike S S Eq operand) :
    Alike S S Eq (Grammar.tail op operand) :=
  fun _ _ h => (hS.spaced hS hop).bind h fun _ _ _ h => hoperand.bind h fun _ _ _ h => .read rfl h

theorem chain (hS : Tracks S) {op : Scanner Op} {operand : Scanner Expr}
    (hop : Alike S S Eq op) (hoperand : Alike S S Eq operand) (fuel : Nat) :
    Alike S S Eq (Grammar.chain op operand fuel) := by
  intro cs ds h
  refine hoperand.bind h fun first cs ds h => ?_
  have hrest := (hS.tail_alike hop hoperand).many fuel h
  exact .read (congrArg (fun rest : List (Op × Expr) =>
    if rest.isEmpty then first else .chain first rest) hrest.1) hrest.2

theorem expression (hS : Tracks S) (fuel : Nat) : Alike S S Eq (Grammar.expression fuel) := by
  induction fuel with
  | zero => exact fun _ _ _ => .fail
  | succ fuel ih =>
    exact hS.chain hS.sumOp (hS.chain hS.productOp (hS.signed ih fuel) fuel) fuel

/-! ## Lines -/

theorem repeatCount (hS : Tracks S) : Alike S S Eq Grammar.repeatCount := by
  intro cs ds h
  refine (hS.spaced hS hS.digits).bind h fun n cs ds h => ?_
  dsimp only
  split
  · exact (hS.mark (k := '*') rfl rfl).bind h fun _ _ _ h => .read rfl h
  · exact .fail

variable {items : Scanner (List LineItem)}

theorem itemBehind (hS : Tracks S) (hitems : Alike S S Eq items) (count : Option Nat)
    (minus : Option Unit) : Alike S S Eq (itemBehind items count minus) := by
  intro cs ds h
  have hgroup := (hS.mark (k := '(') rfl rfl).between hitems (hS.mark (k := ')') rfl rfl) h
  unfold Deck.itemBehind
  generalize Scanner.between _ items _ cs = x, Scanner.between _ items _ ds = y at hgroup ⊢
  cases hgroup with
  | fail => exact (hS.spaced hS hS.name).map (LineItem.name _ _) h
  | read hab hrest => exact .read (congrArg _ hab) hrest

theorem lineItem (hS : Tracks S) (hitems : Alike S S Eq items) :
    Alike S S Eq (Grammar.lineItem items) := by
  intro cs ds h
  have hcount := hS.repeatCount.opt h
  have hminus := (hS.mark (k := '-') rfl rfl).opt hcount.2
  have hread := hS.itemBehind hitems (Scanner.opt Grammar.repeatCount ds).1
    (Scanner.opt (Scanner.mark '-') (Scanner.opt Grammar.repeatCount ds).2).1 hminus.2
  rw [lineItem_eq, lineItem_eq, hcount.1, hminus.1]
  exact hread

theorem lineItems (hS : Tracks S) (fuel : Nat) : Alike S S Eq (Grammar.lineItems fuel) := by
  induction fuel with
  | zero => exact fun _ _ _ => .fail
  | succ fuel ih => exact (hS.lineItem ih).sepBy1 (hS.mark (k := ',') rfl rfl) fuel

/-! ## Statements -/

theorem equals (hS : Tracks S) : Alike S S Eq Grammar.equals :=
  hS.spaced hS (((hS.char (k := ':') rfl rfl).after (hS.char (k := '=') rfl rfl)).orElse
    (hS.char (k := '=') rfl rfl))

theorem array (hS : Tracks S) (fuel : Nat) : Alike S S Eq (Grammar.array fuel) :=
  (hS.char (k := '{') rfl rfl).after (((hS.spaced hS (hS.expression fuel)).sepBy
    (hS.char (k := ',') rfl rfl) fuel).before (hS.mark (k := '}') rfl rfl))

theorem assignment (hS : Tracks S) (fuel : Nat) : Alike S S Eq (Grammar.assignment fuel) :=
  fun _ _ h => (hS.spaced hS hS.name).bind h fun _ _ _ h => hS.equals.bind h fun _ _ _ h =>
    (hS.expression fuel).bind h fun _ _ _ h => .read rfl h

end Tracks

theorem alike_literal (fuel : Nat) : Alike SameQuoted SameQuoted Eq (literal fuel) :=
  have hS := tracks_sameQuoted
  hS.spaced hS ((alike_quoted_eq.map Literal.text).orElse
    (((hS.array fuel).map Literal.array).orElse ((hS.expression fuel).map Literal.expr)))

theorem alike_setting (fuel : Nat) : Alike SameQuoted SameQuoted Eq (setting fuel) :=
  have hS := tracks_sameQuoted
  fun _ _ h => (hS.spaced hS hS.name).bind h fun _ _ _ h => hS.equals.bind h fun _ _ _ h =>
    (alike_literal fuel).bind h fun _ _ _ h => .read rfl h

theorem alike_definition (fuel : Nat) : Alike SameQuoted SameQuoted Eq (definition fuel) := by
  have hS := tracks_sameQuoted
  intro cs ds h
  refine ((hS.spaced hS hS.name).before (hS.mark (k := ':') rfl rfl)).bind h fun label cs ds h => ?_
  refine (hS.spaced hS hS.name).bind h fun keyword cs ds h => ?_
  dsimp only
  split
  · exact (hS.equals.after ((hS.mark (k := '(') rfl rfl).between (hS.lineItems fuel)
      (hS.mark (k := ')') rfl rfl))).bind h fun _ _ _ h => .read rfl h
  · have hattributes := ((hS.mark (k := ',') rfl rfl).after (alike_setting fuel)).many fuel h
    exact .read (congrArg (Statement.element label keyword) hattributes.1) hattributes.2

/-! ## Commands -/

theorem alike_bareWord : Alike SameUpper SameUpper Eq bareWord := by
  have hcomma : Caseless (· != ',') := caseless_bne rfl
  intro cs ds h
  have hword : upper (cs.takeWhile (· != ',')) = upper (ds.takeWhile (· != ',')) := by
    rw [← takeWhile_upper hcomma, h, takeWhile_upper hcomma]
  have hempty : (cs.takeWhile (· != ',')).isEmpty = (ds.takeWhile (· != ',')).isEmpty := by
    rw [← List.isEmpty_map (f := Char.toUpper)]
    exact (congrArg List.isEmpty hword).trans List.isEmpty_map
  unfold bareWord
  dsimp only
  rw [hempty]
  split
  · exact .fail
  · refine .read (by rw [← trim_upper, hword, trim_upper]) ?_
    rw [SameUpper, ← dropWhile_upper hcomma, h, dropWhile_upper hcomma]

/-- The arguments have the same key, and words that `R` relates. -/
structure SameKey (R : String → String → Prop) (a b : Argument) : Prop where
  key : a.key = b.key
  word : R a.word b.word

theorem alike_argument (hS : Tracks S) {R : String → String → Prop}
    (hword : Alike S SameUpper R (Scanner.orElse Word.quoted bareWord)) :
    Alike S SameUpper (SameKey R) argument := by
  intro cs ds h
  have hkey := ((hS.spaced hS hS.name).before hS.equals).opt h
  refine (hS.spaced tracks_sameUpper hword hkey.2).bind fun _ _ _ _ hab h => ?_
  exact .read ⟨hkey.1, hab⟩ h

theorem alike_firstArgument : Alike SameQuoted SameUpper Eq argument := by
  have hword : Alike SameQuoted SameUpper Eq (Scanner.orElse Word.quoted bareWord) :=
    Alike.orElse (fun _ _ h => (alike_quoted_eq h).imp (fun _ _ => id) fun _ _ => SameQuoted.upper)
      fun _ _ h => alike_bareWord h.upper
  intro cs ds h
  refine (alike_argument tracks_sameQuoted hword h).imp (fun a b hab => ?_) fun _ _ => id
  cases a
  cases b
  exact congr (congrArg Argument.mk hab.key) hab.word

/-- Words that differ in the case of letters only. -/
def SameWord (s t : String) : Prop :=
  upper s.toList = upper t.toList

theorem alike_furtherArgument : Alike SameUpper SameUpper (SameKey SameWord) argument :=
  alike_argument tracks_sameUpper (alike_quoted.orElse fun _ _ h =>
    (alike_bareWord h).imp (fun _ _ hab => congrArg (upper ·.toList) hab) fun _ _ => id)

/-- Arguments that a command cannot tell apart: the first is the same, the others differ in the case
of letters only. -/
structure SameArguments (as bs : List Argument) : Prop where
  head : as.head? = bs.head?
  all : List.Forall₂ (SameKey SameWord) as bs

theorem sameKey_refl (a : Argument) : SameKey SameWord a a :=
  ⟨rfl, rfl⟩

/-- Behind the first argument the texts may differ in their quotations: a word that holds one may
end inside it. -/
theorem alike_arguments (fuel : Nat) {cs ds : List Char} (h : SameQuoted cs ds) :
    SameArguments (Scanner.many (Scanner.after (Scanner.mark ',') argument) fuel cs).1
      (Scanner.many (Scanner.after (Scanner.mark ',') argument) fuel ds).1 ∧
    SameUpper (Scanner.many (Scanner.after (Scanner.mark ',') argument) fuel cs).2
      (Scanner.many (Scanner.after (Scanner.mark ',') argument) fuel ds).2 := by
  cases fuel with
  | zero => exact ⟨⟨rfl, .nil⟩, h.upper⟩
  | succ fuel =>
    have hfirst := (tracks_sameQuoted.mark (k := ',') rfl rfl).after alike_firstArgument h
    unfold Scanner.many
    generalize Scanner.after _ argument cs = x, Scanner.after _ argument ds = y at hfirst ⊢
    cases hfirst with
    | fail => exact ⟨⟨rfl, .nil⟩, h.upper⟩
    | read hab hrest =>
      subst hab
      obtain ⟨hargs, hrest⟩ := ((tracks_sameUpper.mark (k := ',') rfl rfl).after
        alike_furtherArgument).many_forall₂ fuel hrest
      exact ⟨⟨rfl, .cons (sameKey_refl _) hargs⟩, hrest⟩

/-! ## What statements do -/

/-- Statements that do the same in every session. -/
def SameEffect (s t : Statement) : Prop :=
  ∀ (d : Dialect) (session : Session) (line : Nat),
    session.statement d line s = session.statement d line t

theorem map_find?_word {as bs : List Argument} (h : List.Forall₂ (SameKey SameWord) as bs)
    (p : Option String → Bool) :
    (as.find? fun a => p a.key).map (fun a => String.ofList (upper a.word.toList)) =
      (bs.find? fun a => p a.key).map (fun a => String.ofList (upper a.word.toList)) := by
  induction h with
  | nil => rfl
  | cons hab _ ih =>
    rw [List.find?_cons, List.find?_cons, hab.key]
    split
    · exact congrArg (fun cs => some (String.ofList cs)) hab.word
    · exact ih

/-- `USE` takes the word in upper case, and `TITLE` the first argument. -/
theorem sameEffect_command (keyword : String) {as bs : List Argument} (h : SameArguments as bs) :
    SameEffect (.command keyword as) (.command keyword bs) := by
  intro d session line
  have hcommand : session.command keyword as = session.command keyword bs := by
    unfold Session.command
    split
    · exact congrArg (fun root => some { session with root })
        (map_find?_word h.all Session.rootKeys.contains)
    · rw [h.head]
    all_goals rfl
  exact congrArg Except.ok hcommand

theorem alike_command (fuel : Nat) : Alike SameQuoted SameUpper SameEffect (command fuel) :=
  fun _ _ h => (tracks_sameQuoted.spaced tracks_sameQuoted tracks_sameQuoted.name).bind h
    fun keyword _ _ h => have harguments := alike_arguments fuel h
      .read (sameEffect_command keyword harguments.1) harguments.2

theorem alike_statement (fuel : Nat) : Alike SameQuoted SameUpper SameEffect (statement fuel) := by
  have hsame {p : Scanner Statement} (hp : Alike SameQuoted SameQuoted Eq p) :
      Alike SameQuoted SameUpper SameEffect p := by
    refine fun _ _ h => (hp h).imp (fun s t hst => ?_) fun _ _ => SameQuoted.upper
    rw [hst]
    exact fun _ _ _ => rfl
  exact (hsame (tracks_sameQuoted.assignment fuel)).orElse
    ((hsame (alike_definition fuel)).orElse (alike_command fuel))

/-- Clauses in other letters spell statements that do the same, or none. -/
theorem parse_recased {cs ds : List Char} (h : SameQuoted cs ds) :
    (∃ e e', parse cs = .error e ∧ parse ds = .error e') ∨
      ∃ s t, parse cs = .ok s ∧ parse ds = .ok t ∧ SameEffect s t := by
  have hread := alike_statement (cs.length + 1) h
  unfold parse
  rw [← length_eq_of_upper_eq h.upper]
  generalize statement (cs.length + 1) cs = x, statement (cs.length + 1) ds = y at hread ⊢
  cases hread with
  | fail => exact .inl ⟨_, _, rfl, rfl⟩
  | @read s t rest rest' hst hrest =>
    have hgap := tracks_sameUpper.skipGap hrest
    dsimp only
    generalize skipGap rest = x, skipGap rest' = y at hgap ⊢
    cases x with
    | nil =>
      obtain rfl := tracks_sameUpper.eq_nil hgap
      exact .inr ⟨s, t, rfl, rfl, hst⟩
    | cons c x =>
      cases y with
      | nil => cases hgap
      | cons d y => exact .inl ⟨_, _, rfl, rfl⟩

end Beamline.Deck

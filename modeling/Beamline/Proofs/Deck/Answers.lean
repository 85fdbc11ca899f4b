import Beamline.Deck.Reader
import Beamline.Proofs.Deck.Forms
import Beamline.Proofs.Document.Builder

/-!
# The flaws that a deck is told of

The reversal of lines is the only part of reading a deck that need not come back with an answer.

* `Flaw.IsAnswer` : the flaws that a computation comes back with;
* `Session.clause_raises` : a clause fails with its line, and with such a flaw unless the items of a
  line cannot be arranged;
* `Session.clauses_raises_line`, `Session.clauses_raises` : so do all of them, the latter if their
  lines can be put one after the other;
* `Document.readDeck_raises` : and so does reading the deck.
-/

namespace Beamline.Deck

open Table

/-- A flaw that a computation comes back with. -/
def Flaw.IsAnswer (f : Flaw) : Prop :=
  ∀ name, f ≠ .endlessReversal name

/-! ## Values -/

theorem apply_raises (name : String) (x : Float) : Raises Flaw.IsAnswer (apply name x) := by
  unfold apply
  split
  · exact .ok _
  · exact .error nofun

namespace Expr

section

variable (pow : Float → Float → Float) (vars : Variables)

mutual

theorem evalBy_raises (e : Expr) : Raises Flaw.IsAnswer (e.evalBy pow vars) := by
  match e with
  | .number x => exact .ok x
  | .var name =>
    unfold evalBy
    split
    · exact .ok _
    · exact .error nofun
  | .call f argument => exact (evalBy_raises argument).bind fun x _ => apply_raises f x
  | .neg e => exact (evalBy_raises e).bind fun x _ => .ok _
  | .chain first rest => exact (evalBy_raises first).bind fun x _ => evalChain_raises x rest
  | .power operands => exact evalPower_raises operands

theorem evalChain_raises (x : Float) (rest : List (Op × Expr)) :
    Raises Flaw.IsAnswer (evalChain pow vars x rest) := by
  match rest with
  | [] => exact .ok x
  | (op, e) :: rest => exact (evalBy_raises e).bind fun y _ => evalChain_raises (op.apply x y) rest

theorem evalPower_raises (operands : List Expr) :
    Raises Flaw.IsAnswer (evalPower pow vars operands) := by
  match operands with
  | [] => exact .ok 1
  | [e] => exact evalBy_raises e
  | e :: e' :: rest =>
    exact (evalPower_raises (e' :: rest)).bind fun x _ => (evalBy_raises e).bind fun y _ => .ok _

end

end

theorem eval_raises (vars : Variables) (e : Expr) : Raises Flaw.IsAnswer (e.eval vars) :=
  evalBy_raises Float.pow vars e

end Expr

namespace Postfix

theorem step_raises (text : String) (m : Machine) (t : Token) :
    Raises Flaw.IsAnswer (m.step text t) := by
  unfold Machine.step
  split
  · exact .ok _
  · split
    · exact .ok _
    · exact .error nofun
  · split
    · exact .ok _
    · exact .error nofun
  · split
    · exact .ok _
    · exact .error nofun
  · split
    · split
      · exact .ok _
      · exact .error nofun
    · split
      · exact .ok _
      · split
        · exact .error nofun
        · exact (apply_raises _ _).bind fun y _ => .ok _

theorem run_raises (cs : List Char) (vars : Variables) : Raises Flaw.IsAnswer (run cs vars) := by
  unfold run
  split
  · apply Raises.error
    unfold Flaw.leftover
    dsimp only
    split <;> exact nofun
  · apply Raises.bind (Raises.foldlM (fun t _ m => step_raises _ m t) _)
    intro m _
    split
    · exact .ok _
    · exact .error nofun

end Postfix

namespace Session

variable {d : Dialect}

theorem number_raises (vars : Variables) (value : Literal) :
    Raises Flaw.IsAnswer (number d vars value) := by
  unfold number
  split
  · exact (Expr.eval_raises vars _).bind fun x _ => .ok _
  · split
    · exact Postfix.run_raises _ vars
    · exact .error nofun
  · exact .error nofun

theorem finite_raises (x : Float) : Raises Flaw.IsAnswer (finite x) := by
  unfold finite
  split
  · exact .ok x
  · exact .error nofun

theorem quantity_raises (vars : Variables) (form : Form) (value : Literal) :
    Raises Flaw.IsAnswer (quantity d vars form value) := by
  unfold quantity
  split
  · refine (Raises.mapM fun e _ => Expr.eval_raises vars e).bind fun xs _ => ?_
    exact (Raises.mapM fun x _ => finite_raises x).bind fun xs _ => .ok _
  · exact (number_raises vars value).bind fun x _ => (finite_raises _).bind fun y _ => .ok _
  · exact (number_raises vars value).bind fun x _ => (finite_raises _).bind fun y _ => .ok _

theorem order_raises (vars : Variables) (value : Literal) :
    Raises Flaw.IsAnswer (order d vars value) := by
  refine (number_raises vars value).bind fun x _ => ?_
  dsimp only
  split
  · exact .ok _
  · exact .error nofun

theorem lengthOf_raises (attributes : List (String × Literal)) : ∀ (length : Float)
    (vars : Variables), Raises Flaw.IsAnswer (lengthOf d length vars attributes) := by
  induction attributes with
  | nil => exact fun length vars => .ok _
  | cons a attributes ih =>
    intro length vars
    unfold lengthOf
    split
    · exact (number_raises vars a.2).bind fun x _ => ih _ _
    · exact ih length vars

/-! ## Statements -/

/-- What fails in a clause is told with the line of the clause. -/
theorem attempt_raises {α : Type} {P : Flaw → Prop} {x : Except Flaw α} (h : Raises P x)
    (s : Session) (line : Nat) :
    Raises (fun f => f.line = line ∧ P f.flaw) (s.attempt line x) :=
  h.mapError fun _ hf => ⟨rfl, hf⟩

theorem attribute_raises (name key : String) (draft : Draft) (value : Literal) :
    Raises (fun f => f.line = draft.definition.line ∧ f.flaw.IsAnswer)
      (draft.attribute d name key value) := by
  unfold Draft.attribute
  dsimp only
  split
  · exact (attempt_raises (order_raises _ value) _ _).bind fun x _ => .ok _
  · split
    · exact .ok _
    · exact (attempt_raises (quantity_raises _ _ value) _ _).bind fun x _ => .ok _

theorem attributes_raises (name : String) (attributes : List (String × Literal)) :
    ∀ draft : Draft, Raises (fun f => f.line = draft.definition.line ∧ f.flaw.IsAnswer)
      (draft.attributes d name attributes) := by
  induction attributes with
  | nil => exact fun draft => .ok draft
  | cons a attributes ih =>
    intro draft
    refine (attribute_raises name a.1 draft a.2).bind fun draft' hdraft => ?_
    obtain ⟨sk, notes, -, rfl⟩ := sketch_of_attribute hdraft
    exact ih _

theorem defineElement_raises (s : Session) (line : Nat) (name keyword : String)
    (attributes : List (String × Literal)) :
    Raises (fun f => f.line = line ∧ f.flaw.IsAnswer)
      (defineElement d s line name keyword attributes) := by
  unfold defineElement
  dsimp only
  split
  · exact .error ⟨rfl, nofun⟩
  · split
    · refine (attempt_raises (lengthOf_raises attributes _ _) _ _).bind fun x _ => ?_
      exact (attempt_raises (finite_raises _) _ _).bind fun y _ => .ok _
    · rename_i e he
      -- an element that starts from another one is defined on a line of its own
      have hline : e.line = line := by
        split at he
        · cases he
          rfl
        · obtain ⟨parent, -, rfl⟩ := Option.map_eq_some_iff.1 he
          rfl
      have hattributes := attributes_raises (d := d) name attributes ⟨s, e, none⟩
      rw [hline] at hattributes
      exact hattributes.bind fun draft _ => .ok _

theorem parse_raises (cs : List Char) : Raises Flaw.IsAnswer (parse cs) := by
  have hleftover : ∀ rest, (Flaw.leftover rest).IsAnswer := by
    intro rest
    unfold Flaw.leftover
    dsimp only
    split <;> exact nofun
  unfold parse
  split
  · exact .error (hleftover _)
  · split
    · exact .ok _
    · exact .error (hleftover _)

/-- A clause fails with its line and with an answer, unless it defines a line: then with what the
arrangement of its items fails with. -/
theorem clause_raises {P : Flaw → Prop} (hP : ∀ f : Flaw, f.IsAnswer → P f) (s : Session)
    (c : Clause) (h : ∀ name items, spelled? d c = some (.line name items) →
      Raises P (arrange s.lines items)) :
    Raises (fun f => f.line = c.line ∧ P f.flaw) (s.clause d c) := by
  unfold clause
  split
  · exact .error ⟨rfl, hP _ nofun⟩
  · split
    · exact (attempt_raises ((Postfix.run_raises _ _).imp hP) _ _).bind fun x _ => .ok _
    · rename_i hcalculation
      refine (attempt_raises ((parse_raises _).imp hP) _ _).bind fun st hst => ?_
      have hspelled : spelled? d c = some st := by
        rw [spelled?, hcalculation, attempt_eq_ok.1 hst]
        rfl
      cases st with
      | assign name value =>
        have hvalue := (Expr.eval_raises s.vars value).imp hP
        exact (attempt_raises hvalue _ _).bind fun x _ => .ok _
      | element name keyword attributes =>
        refine Raises.bind ?_ fun t _ => .ok _
        exact (defineElement_raises s c.line name keyword attributes).imp fun f hf =>
          ⟨hf.1, hP _ hf.2⟩
      | line name items =>
        refine Raises.bind ?_ fun t _ => .ok _
        exact (attempt_raises (h name items hspelled) _ _).bind fun x _ => .ok _
      | command keyword arguments => exact .ok _

/-- What fails of some clauses is one of them, and it fails with its line. -/
theorem clauses_raises_line {cs : List Clause} : ∀ s : Session,
    Raises (fun f => ∃ c ∈ cs, f.line = c.line) (s.clauses d cs) := by
  induction cs with
  | nil => exact fun s => .ok s
  | cons c cs ih =>
    intro s
    have hfirst : Raises (fun f => f.line = c.line ∧ True) (s.clause d c) :=
      clause_raises (fun _ _ => trivial) s c fun _ _ _ _ _ => trivial
    refine (hfirst.imp fun f hf => ⟨c, List.mem_cons_self, hf.1⟩).bind fun next _ => ?_
    cases next with
    | none => exact .ok s
    | some t => exact (ih t).imp fun f ⟨c', hc', hline⟩ => ⟨c', List.mem_cons_of_mem c hc', hline⟩

/-- Clauses fail with an answer if their lines can be put one after the other. -/
theorem clauses_raises {cs : List Clause} : ∀ {s : Session} {lines : Lines},
    (linesOf d cs).foldlM addLine s.lines = .ok lines →
    Raises (·.flaw.IsAnswer) (s.clauses d cs) := by
  induction cs with
  | nil => exact fun _ => .ok _
  | cons c cs ih =>
    intro s lines h
    have hfirst : Raises (fun f => f.line = c.line ∧ f.flaw.IsAnswer) (s.clause d c) := by
      refine clause_raises (fun f hf => hf) s c fun name items hspelled => ?_
      rw [linesOf, hspelled] at h
      obtain ⟨lines₁, hadd, -⟩ := bind_eq_ok.1 h
      obtain ⟨result, harrange, -⟩ := bind_eq_ok.1 hadd
      rw [harrange]
      exact .ok _
    refine (hfirst.imp fun f hf => hf.2).bind fun next hclause => ?_
    cases next with
    | none => exact .ok s
    | some t =>
      rcases clause_ok hclause cs with
        ⟨name, items, names, lines₁, hlines, harrange, ht⟩ | ⟨hlines, ht⟩
      · rw [hlines] at h
        obtain ⟨lines₂, hadd, h⟩ := bind_eq_ok.1 h
        obtain ⟨result, harrange', heq⟩ := bind_eq_ok.1 hadd
        rw [harrange] at harrange'
        cases harrange'
        cases heq
        exact ih (ht ▸ h)
      · rw [hlines] at h
        exact ih (ht ▸ h)

theorem elementList_raises (s : Session) : Raises (·.2.IsAnswer) s.elementList := by
  apply Raises.mapM
  intro x _
  have helement : Raises (fun _ => True) (x.2.element x.1) := fun _ _ => trivial
  exact helement.mapError fun flaw _ name => nofun

end Session

end Beamline.Deck

namespace Beamline

open Deck Table

/-! ## Reading -/

/-- An error that a computation comes back with. -/
def Error.IsAnswer (e : Error) : Prop :=
  ∀ d line f, e = .importing d line f → f.IsAnswer

theorem Error.IsVerdict.isAnswer {e : Error} (h : e.IsVerdict) : e.IsAnswer := by
  intro d line f heq
  rw [heq] at h
  cases h

theorem isAnswer_importing {d : Dialect} {line : Nat} {f : Flaw} (h : f.IsAnswer) :
    (Error.importing d line f).IsAnswer := by
  intro d' line' f' heq
  cases heq
  exact h

/-- Reading a deck ends if its lines can be put one after the other. -/
theorem Document.readDeck_raises {d : Dialect} {text : String} {lines : Lines}
    (h : (lineDefinitions d text).foldlM addLine [] = .ok lines) :
    Raises Error.IsAnswer (readDeck d text).1 := by
  have hclauses := Session.clauses_raises (s := { title := (cut d text.toList).title }) h
  unfold readDeck
  dsimp only
  split
  · rename_i f hf
    exact .error (isAnswer_importing (hclauses f hf))
  · rename_i s hs
    unfold Session.document
    split
    · rename_i line f hf
      exact .error (isAnswer_importing (Session.elementList_raises s _ hf))
    · exact fun e he => (Builder.build_raises _ e he).isAnswer

end Beamline

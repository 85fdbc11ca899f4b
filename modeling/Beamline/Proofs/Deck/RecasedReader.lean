import Beamline.Deck.Reader
import Beamline.Proofs.Bind
import Beamline.Proofs.Deck.RecasedStatements

/-!
# Reading decks in other letters

* `Postfix.run_recased` : postfix expressions in other letters have the same value;
* `Session.clause_recased`, `Session.clauses_recased` : so what has been read of a deck is the same
  clause by clause;
* `Document.readDeck_recased` : decks that differ in the case of letters only, comments and
  quotations apart, describe the same document, or none.
-/

namespace Beamline

namespace Deck

open Text

namespace Postfix

/-! ## Postfix expressions -/

theorem alike_number : Alike SameUpper SameUpper Eq number := by
  have hS := tracks_sameUpper
  refine hS.ofMark (k := '-') rfl rfl (hS.magnitude.map fun x => Token.number (-x))
    (hS.magnitude.map Token.number) (fun _ => rfl) fun cs hcs => ?_
  unfold number
  split
  · exact absurd rfl (hcs _)
  · rfl

theorem alike_store : Alike SameUpper SameUpper Eq store := by
  have hS := tracks_sameUpper
  intro cs ds h
  have htake : upper (cs.take 3) = upper (ds.take 3) := by
    rw [upper, List.map_take, upper, List.map_take]
    exact congrArg (List.take 3) h
  have hdrop : SameUpper (cs.drop 3) (ds.drop 3) := by
    rw [SameUpper, upper, List.map_drop, upper, List.map_drop]
    exact congrArg (List.drop 3) h
  have hhead (cs : List Char) : (upper cs).head?.any isGap = cs.head?.any isGap := by
    cases cs with
    | nil => rfl
    | cons c cs => exact caseless_isGap c
  have hgap : (cs.drop 3).head?.any isGap = (ds.drop 3).head?.any isGap := by
    rw [← hhead, hdrop, hhead]
  unfold store
  dsimp only
  rw [htake, hgap]
  split
  · exact hS.name.map Token.store (hS.skipGap hdrop)
  · exact .fail

theorem operator_cons (c : Char) (cs : List Char) :
    operator (c :: cs) = (operator [c]).map fun (t, _) => (t, cs) := by
  unfold operator
  split <;> simp_all

theorem alike_operator : Alike SameUpper SameUpper Eq operator := by
  refine tracks_sameUpper.ofMarks rfl (fun c cs hc => ?_) fun c cs ds h => ?_
  · unfold operator
    split <;> first | (rename_i heq; cases heq; exact absurd hc (by decide)) | rfl
  · rw [operator_cons, operator_cons c ds]
    cases operator [c] with
    | none => exact .fail
    | some t => exact .read rfl (List.cons.inj h).2

theorem alike_token : Alike SameUpper SameUpper Eq token :=
  alike_number.orElse (alike_store.orElse
    (alike_operator.orElse (tracks_sameUpper.name.map Token.word)))

theorem tokens_recased {cs ds : List Char} (h : SameUpper cs ds) :
    (tokens cs).1 = (tokens ds).1 ∧ SameUpper (tokens cs).2 (tokens ds).2 := by
  have hS := tracks_sameUpper
  have hpiece : Alike SameUpper SameUpper Eq fun cs =>
      (token cs).map fun (t, cs) => (t, skipGap cs) := by
    intro cs ds h
    have hread := alike_token h
    dsimp only
    generalize token cs = x, token ds = y at hread ⊢
    cases hread with
    | fail => exact .fail
    | read hab hrest => exact .read hab (hS.skipGap hrest)
  unfold tokens
  rw [length_eq_of_upper_eq h]
  exact hpiece.many ds.length (hS.skipGap h)

/-- The text of the expression is told in failures only. -/
theorem toOption_step (text text' : String) (m : Machine) (t : Token) :
    (m.step text t).toOption = (m.step text' t).toOption := by
  unfold Machine.step
  repeat' split
  all_goals rfl

theorem toOption_foldlM_step (text text' : String) (ts : List Token) : ∀ m : Machine,
    (ts.foldlM (Machine.step text) m).toOption = (ts.foldlM (Machine.step text') m).toOption := by
  induction ts with
  | nil => exact fun _ => rfl
  | cons t ts ih =>
    intro m
    rw [List.foldlM_cons, List.foldlM_cons, toOption_bind, toOption_bind, toOption_step text text']
    exact congrArg _ (funext ih)

theorem run_recased {cs ds : List Char} (h : SameUpper cs ds) (vars : Variables) :
    (run cs vars).toOption = (run ds vars).toOption := by
  obtain ⟨htokens, hrest⟩ := tokens_recased h
  unfold run
  generalize tokens cs = x, tokens ds = y at htokens hrest ⊢
  obtain ⟨ts, rest⟩ := x
  obtain ⟨ts', rest'⟩ := y
  obtain rfl : ts = ts' := htokens
  cases rest with
  | nil =>
    obtain rfl : rest' = [] := tracks_sameUpper.eq_nil hrest
    dsimp only
    rw [toOption_bind, toOption_bind, toOption_foldlM_step _ (String.ofList (trim ds))]
    refine congrArg _ (funext fun m => ?_)
    cases m.stack <;> rfl
  | cons c rest =>
    cases rest' with
    | nil => cases hrest
    | cons d rest' => rfl

end Postfix

/-! ## Clauses -/

namespace Session

variable {d : Dialect} {c c' : Clause}

theorem toOption_attempt {α : Type} (s : Session) (line : Nat) (result : Except Flaw α) :
    (s.attempt line result).toOption = result.toOption :=
  toOption_mapError

theorem calculation?_recased (d : Dialect) (h : SameUpper c.text c'.text) :
    Option.Rel SameUpper (calculation? d c) (calculation? d c') := by
  have hnone {cs : List Char} (hcs : ¬ ∃ rest, cs = '%' :: rest) (n : Nat) :
      calculation? d ⟨n, cs⟩ = none := by
    unfold calculation?
    split
    · rename_i heq
      exact absurd ⟨_, heq⟩ hcs
    · rfl
  obtain ⟨line, text⟩ := c
  obtain ⟨line', text'⟩ := c'
  have hpercent := tracks_sameUpper.exists_cons (k := '%') rfl h
  by_cases htext : ∃ rest, text = '%' :: rest
  · obtain ⟨rest', rfl⟩ := hpercent.1 htext
    obtain ⟨rest, rfl⟩ := htext
    unfold calculation?
    cases d.quotesExpressions with
    | false => exact .none
    | true => exact .some (List.cons.inj h).2
  · rw [hnone htext, hnone (mt hpercent.2 htext)]
    exact .none

theorem clause_recased (s : Session) (hline : c.line = c'.line)
    (h : SameQuoted c.text c'.text) :
    (s.clause d c).toOption = (s.clause d c').toOption := by
  have hdepth : bracketDepth c.text = bracketDepth c'.text := by
    rw [← bracketDepth_upper, h.upper, bracketDepth_upper]
  have hcalculation := calculation?_recased d h.upper
  unfold clause
  rw [hdepth]
  split
  · rfl
  · generalize calculation? d c = x, calculation? d c' = y at hcalculation ⊢
    cases hcalculation with
    | none =>
      dsimp only
      rw [toOption_bind, toOption_bind, toOption_attempt, toOption_attempt]
      rcases parse_recased h with ⟨e, e', hcs, hds⟩ | ⟨st, st', hcs, hds, heffect⟩
      · rw [hcs, hds]
        rfl
      · rw [hcs, hds, hline]
        exact congrArg Except.toOption (heffect d s c'.line)
    | some hrun =>
      dsimp only
      rw [toOption_bind, toOption_bind, toOption_attempt, toOption_attempt,
        Postfix.run_recased hrun]

theorem clauses_recased {cs : List Clause} : ∀ {cs' : List Clause} (s : Session),
    cs.map Clause.upper = cs'.map Clause.upper →
    cs.map (fun c => quotedFrom none c.text) = cs'.map (fun c => quotedFrom none c.text) →
    (s.clauses d cs).toOption = (s.clauses d cs').toOption := by
  induction cs with
  | nil =>
    intro cs' s hupper _
    obtain rfl := List.map_eq_nil_iff.1 hupper.symm
    rfl
  | cons c cs ih =>
    intro cs' s hupper hquoted
    cases cs' with
    | nil => cases hupper
    | cons c' cs' =>
      obtain ⟨hc, hupper⟩ := List.cons.inj hupper
      obtain ⟨hquote, hquoted⟩ := List.cons.inj hquoted
      obtain ⟨hline, htext⟩ := Clause.mk.inj hc
      have hclause := s.clause_recased (d := d) hline ⟨htext, hquote⟩
      rw [clauses, clauses, toOption_bind, toOption_bind, hclause]
      refine congrArg _ (funext fun r => ?_)
      cases r with
      | none => rfl
      | some s => exact ih s hupper hquoted

end Session

end Deck

open Deck

/-- Decks that differ in the case of letters only, comments and quotations apart, describe the same
document, or none. -/
theorem Document.readDeck_recased {d : Dialect} {text text' : List Char}
    (h : Recased d text text') : (Document.readDeck d (.ofList text)).1.toOption =
      (Document.readDeck d (.ofList text')).1.toOption := by
  obtain ⟨hclauses, htitle⟩ := h.clauses
  have hrun := Session.clauses_recased (d := d) { title := (Deck.cut d text).title } hclauses
    h.quotations
  unfold Document.readDeck
  rw [String.toList_ofList, String.toList_ofList]
  dsimp only
  rw [← htitle]
  generalize Session.clauses _ _ _ = x, Session.clauses _ _ (Deck.cut d text').clauses = y at hrun ⊢
  cases x <;> cases y
  · rfl
  · cases hrun
  · cases hrun
  · cases hrun
    rfl

/-- Names, keywords, attributes, a postfix word outside quotations and an exponent in other letters;
the title in the comment and the quotation stay as they are. -/
theorem Document.readDeck_recased_ring :
    let lower := "! TITLE: Ring\n% 1 sto k\nq: kquad, l=\"k 2 *\", k1=1.5e-1\nb: line=(q)\nuse, b"
    let mixed := "! TITLE: Ring\n% 1 Sto K\nQ: KQuad, L=\"k 2 *\", K1=1.5E-1\nB: Line=(Q)\nUSE, B"
    Recased .elegant lower.toList mixed.toList ∧
      (Document.readDeck .elegant lower).1.toOption =
        (Document.readDeck .elegant mixed).1.toOption := by
  intro lower mixed
  have h : Recased .elegant lower.toList mixed.toList :=
    ⟨by decide +kernel, fun _ => by decide +kernel, by decide +kernel⟩
  have hread := Document.readDeck_recased h
  rw [String.ofList_toList, String.ofList_toList] at hread
  exact ⟨h, hread⟩

end Beamline

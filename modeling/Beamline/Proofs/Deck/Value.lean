import Beamline.Deck.Grammar
import Beamline.Deck.Value
import Beamline.Deck.Writer
import Beamline.Proofs.Deck.Word
import Beamline.Proofs.Document.Elements

/-!
# Values that are read as written

* `Grammar.expression_plain` : a finite float is read as an expression with that value;
* `Deck.Denotes` : the literals that stand for the value of a parameter;
* `Deck.Given` : what an attribute is given, the value of a parameter or the order of a multipole;
* `Grammar.literal_given` : it is read as a literal that stands for it.
-/

namespace Beamline.Deck

open Text Text.Scanner
open Decimal (Numeral Written withSign signText)

/-- The literals that stand for a quantity, whatever the variables are. -/
def Denotes : Literal → Quantity → Prop
  | .expr e, .number x => ∀ vars, e.eval vars = .ok x
  | .array es, .numbers xs => List.Forall₂ (fun x e => ∀ vars, Expr.eval vars e = .ok x) xs es
  | _, _ => False

/-- The text of a quantity. -/
def quantityText : Quantity → List Char
  | .number x => (plain x).toList
  | .numbers xs => (braced xs).toList

/-- What an attribute is given: the value of a parameter, or the order of a multipole. -/
inductive Given where
  | value (q : Quantity)
  | order (n : Nat)

namespace Given

def text : Given → List Char
  | value q => quantityText q
  | order n => (toString n).toList

/-- The attribute `key` with what it is given. -/
def assignment (key : String) : Given → String
  | value q => Deck.assignment key q
  | order n => key ++ "=" ++ toString n

/-- Floats are finite; orders always are. -/
def Finite : Given → Prop
  | value q => q.Finite
  | order _ => True

/-- The literals that stand for what is given. -/
def Denoted (v : Literal) : Given → Prop
  | value q => Denotes v q
  | order n => Denotes v (.number (Decimal.toFloat ⟨n, 0⟩))

end Given

/-- The settings that an attribute with what it is given is read as. -/
def ReadAs (a : String × Given) (setting : String × Literal) : Prop :=
  setting.1 = a.1 ∧ a.2.Denoted setting.2

/-- A text in which the value in front of it ends. -/
def Stops (rest : List Char) : Prop :=
  ∀ c ∈ rest.head?, c = ',' ∨ c = ')' ∨ c = '}'

theorem stops_nil : Stops [] := by
  intro c hc
  cases hc

theorem stops_cons {c : Char} (hc : c = ',' ∨ c = ')' ∨ c = '}') (cs : List Char) :
    Stops (c :: cs) := by
  rintro _ ⟨⟩
  exact hc

namespace Stops

variable {rest : List Char}

theorem solid (h : Stops rest) : Solid rest := by
  intro c hc
  rcases h c hc with rfl | rfl | rfl <;> decide

theorem ends (h : Stops rest) : Word.Ends rest := by
  intro c hc
  rcases h c hc with rfl | rfl | rfl <;> decide

theorem delimited (h : Stops rest) : Json.Delimited rest := by
  intro c hc
  rcases h c hc with rfl | rfl | rfl <;> decide

theorem sumOp_eq_none (h : Stops rest) : spaced Grammar.sumOp rest = none := by
  apply spaced_eq_none h.solid
  cases rest with
  | nil => rfl
  | cons c rest => rcases h c rfl with rfl | rfl | rfl <;> rfl

theorem productOp_eq_none (h : Stops rest) : spaced Grammar.productOp rest = none := by
  apply spaced_eq_none h.solid
  cases rest with
  | nil => rfl
  | cons c rest => rcases h c rfl with rfl | rfl | rfl <;> rfl

theorem caret_eq_none (h : Stops rest) : spaced Grammar.caret rest = none := by
  apply spaced_eq_none h.solid
  cases rest with
  | nil => rfl
  | cons c rest => rcases h c rfl with rfl | rfl | rfl <;> rfl

end Stops

/-! ## Texts behind commas -/

section Commas

variable {α β : Type} {text : α → List Char} {as : List α}

/-- Texts one after the other, each behind a comma. -/
def behindCommas (text : α → List Char) (as : List α) : List Char :=
  as.flatMap fun a => ',' :: ' ' :: text a

theorem behindCommas_map (f : β → α) (bs : List β) :
    behindCommas text (bs.map f) = behindCommas (fun b => text (f b)) bs :=
  List.flatMap_map ..

theorem length_le_behindCommas (text : α → List Char) (as : List α) :
    as.length ≤ (behindCommas text as).length :=
  length_le_of_pos _ fun _ _ => Nat.succ_pos _

theorem stops_behindCommas {rest : List Char} (h : Stops rest) :
    Stops (behindCommas text as ++ rest) := by
  cases as with
  | nil => exact h
  | cons a as => exact stops_cons (by simp) _

/-- What is read behind each comma is read behind all of them. -/
theorem many_behindCommas {sep : Scanner Unit} {p : Scanner β} {R : α → β → Prop}
    (hread : ∀ a ∈ as, ∀ rest, Stops rest →
      ∃ b, after sep p (',' :: ' ' :: (text a ++ rest)) = some (b, rest) ∧ R a b)
    {rest : List Char} (hrest : Stops rest) (hend : after sep p rest = none) {fuel : Nat}
    (hfuel : as.length ≤ fuel) :
    ∃ bs, many (after sep p) fuel (behindCommas text as ++ rest) = (bs, rest) ∧
      List.Forall₂ R as bs :=
  many_flatMap hread (fun _ _ _ => stops_cons (by simp) _) hrest hend fuel hfuel

theorem toList_intercalate_cons (s : String) (ss : List String) :
    (", ".intercalate (s :: ss)).toList = s.toList ++ behindCommas String.toList ss := by
  unfold behindCommas
  induction ss generalizing s with
  | nil => simp
  | cons t ss ih =>
    rw [String.intercalate_cons_cons, String.toList_append, String.toList_append, ih,
      List.flatMap_cons, List.append_assoc]
    rfl

end Commas

namespace Grammar

/-! ## Expressions -/

section Numeral

variable {n : Numeral} {rest : List Char}

theorem exists_head_text (hn : n.Good) : ∃ c cs, n.text = c :: cs ∧ c.isDigit := by
  obtain ⟨c, cs, h⟩ := List.exists_cons_of_ne_nil hn.whole_ne_nil
  refine ⟨c, _, by rw [Numeral.text, h, List.append_assoc, List.cons_append], ?_⟩
  exact hn.whole_digits c (by rw [h]; exact List.mem_cons_self)

theorem solid_text (hn : n.Good) (rest : List Char) : Solid (n.text ++ rest) := by
  obtain ⟨c, cs, h, hc⟩ := exists_head_text hn
  rw [h, List.cons_append]
  exact solid_cons (isGap_eq_false (by simp) hc) _

theorem atom_text (hn : n.Good) (he : n.exponent = none) (hrest : Stops rest)
    (inner : Scanner Expr) :
    atom inner (n.text ++ rest) = some (.number n.decimal.toFloat, rest) := by
  apply spaced_eq_some (solid_text hn rest) _ hrest.solid
  rw [orElse, Word.magnitude_text hn he hrest.delimited]
  rfl

theorem power_text (hn : n.Good) (he : n.exponent = none) (hrest : Stops rest)
    (inner : Scanner Expr) (fuel : Nat) :
    power inner fuel (n.text ++ rest) = some (.number n.decimal.toFloat, rest) := by
  have hnone : exponentOperand inner rest = none := by
    rw [exponentOperand, hrest.caret_eq_none]
    rfl
  rw [power, atom_text hn he hrest]
  simp [many_eq_nil hnone]

/-- The expression that a number with a sign spells. -/
def signedNumber (negative : Bool) (x : Float) : Expr :=
  if negative then .neg (.number x) else .number x

theorem eval_signedNumber (negative : Bool) (x : Float) (vars : Variables) :
    (signedNumber negative x).eval vars = .ok (withSign negative x) := by
  cases negative <;> rfl

theorem signed_text (hn : n.Good) (he : n.exponent = none) (hrest : Stops rest) (negative : Bool)
    (inner : Scanner Expr) (fuel : Nat) :
    signed inner (fuel + 1) (signText negative n.text ++ rest) =
      some (signedNumber negative n.decimal.toFloat, rest) := by
  have hnone : spaced sumOp (n.text ++ rest) = none := by
    apply spaced_eq_none (solid_text hn rest)
    obtain ⟨c, cs, h, hc⟩ := exists_head_text hn
    rw [h, List.cons_append]
    unfold sumOp
    split
    · exact absurd hc (by rename_i heq; rw [(List.cons.inj heq).1]; decide)
    · exact absurd hc (by rename_i heq; rw [(List.cons.inj heq).1]; decide)
    · rfl
  have hpower := power_text hn he hrest inner (fuel + 1)
  cases negative with
  | false =>
    rw [signText, if_neg Bool.false_ne_true, signed, many_eq_nil hnone]
    simp [hpower, signedNumber]
  | true =>
    have hminus : spaced sumOp ('-' :: (n.text ++ rest)) = some (.sub, n.text ++ rest) :=
      spaced_eq_some (solid_cons (by decide) _) rfl (solid_text hn rest)
    rw [signText, if_pos rfl, List.cons_append, signed, many, hminus]
    simp [many_eq_nil hnone, hpower, signedNumber]

theorem chain_of_tail {op : Scanner Op} {operand : Scanner Expr} {cs : List Char} {e : Expr}
    (h : operand cs = some (e, rest)) (hop : spaced op rest = none) (fuel : Nat) :
    chain op operand fuel cs = some (e, rest) := by
  have hnone : tail op operand rest = none := by
    rw [tail, hop]
    rfl
  rw [chain, h]
  simp [many_eq_nil hnone]

end Numeral

/-- A text that starts as numbers are written, with a digit or a minus sign. -/
def NumberHead (cs : List Char) : Prop :=
  ∃ c rest, cs = c :: rest ∧ (c.isDigit ∨ c = '-')

theorem numberHead_plain {x : Float} (hx : x.isFinite) : NumberHead (plain x).toList := by
  obtain ⟨negative, n, hw⟩ := Decimal.exists_written (s := .plain) (.inl rfl) hx
  rw [plain, String.toList_ofList, hw.text]
  cases negative with
  | false =>
    obtain ⟨c, cs, h, hc⟩ := exists_head_text hw.good
    exact ⟨c, cs, h, .inl hc⟩
  | true => exact ⟨'-', _, rfl, .inr rfl⟩

theorem expression_text {n : Numeral} (hn : n.Good) (he : n.exponent = none) {rest : List Char}
    (hrest : Stops rest) (negative : Bool) (fuel : Nat) :
    expression (fuel + 2) (signText negative n.text ++ rest) =
      some (signedNumber negative n.decimal.toFloat, rest) := by
  rw [expression]
  apply chain_of_tail (chain_of_tail _ hrest.productOp_eq_none _) hrest.sumOp_eq_none
  exact signed_text hn he hrest negative _ fuel

theorem expression_plain {x : Float} (hx : x.isFinite) {rest : List Char} (hrest : Stops rest)
    (fuel : Nat) : ∃ e, expression (fuel + 2) ((plain x).toList ++ rest) = some (e, rest) ∧
      ∀ vars, e.eval vars = .ok x := by
  obtain ⟨negative, n, hw⟩ := Decimal.exists_written (s := .plain) (.inl rfl) hx
  refine ⟨signedNumber negative n.decimal.toFloat, ?_, fun vars => ?_⟩
  · rw [plain, String.toList_ofList, hw.text]
    exact expression_text hw.good (hw.positional fun _ => rfl) hrest negative fuel
  · rw [eval_signedNumber, hw.value]

/-- The digits of a natural number are a numeral. -/
theorem good_digitsOfNat (n : Nat) : (⟨Decimal.digitsOfNat n, [], none⟩ : Numeral).Good where
  whole_ne_nil := Decimal.digitsOfNat_ne_nil n
  whole_digits := fun _ hc => Decimal.isDigit_of_mem_digitsOfNat hc
  fraction_digits := by simp
  leading := by
    rcases Nat.eq_zero_or_pos n with rfl | hn
    · exact .inl rfl
    · exact .inr (Decimal.head_digitsOfNat hn.ne')
  exponent_lt := by simp

theorem text_order (n : Nat) :
    (Given.order n).text = (⟨Decimal.digitsOfNat n, [], none⟩ : Numeral).text := by
  simp [Given.text, Numeral.text, Decimal.digitsOfNat]

theorem numberHead_order (n : Nat) : NumberHead (Given.order n).text := by
  obtain ⟨c, cs, h, hc⟩ := exists_head_text (good_digitsOfNat n)
  exact ⟨c, cs, by rw [text_order, h], .inl hc⟩

theorem expression_order (n : Nat) {rest : List Char} (hrest : Stops rest) (fuel : Nat) :
    ∃ e, expression (fuel + 2) ((Given.order n).text ++ rest) = some (e, rest) ∧
      ∀ vars, e.eval vars = .ok (Decimal.toFloat ⟨n, 0⟩) := by
  have hdecimal : (⟨Decimal.digitsOfNat n, [], none⟩ : Numeral).decimal = ⟨n, 0⟩ := by
    rw [Numeral.decimal, Decimal.ofParts, List.append_nil, Decimal.natOfDigits_digitsOfNat]
    rfl
  refine ⟨.number (Decimal.toFloat ⟨n, 0⟩), ?_, fun vars => rfl⟩
  have hread := expression_text (good_digitsOfNat n) rfl hrest false fuel
  rwa [hdecimal, signText, if_neg Bool.false_ne_true, ← text_order] at hread

theorem expression_brace (fuel : Nat) (cs : List Char) : expression fuel ('}' :: cs) = none := by
  cases fuel with
  | zero => rfl
  | succ fuel =>
    have hsolid : Solid ('}' :: cs) := solid_cons (by decide) cs
    have hatom : atom (expression fuel) ('}' :: cs) = none := by
      apply spaced_eq_none hsolid
      rw [orElse, Word.magnitude_eq_none (by decide) (by decide), Option.map_none, orElse, between,
        after_eq_none (mark_eq_none hsolid (by rintro _ ⟨⟩; decide)), word,
        Word.name_eq_none (by decide)]
      rfl
    have hsigned : signed (expression fuel) fuel ('}' :: cs) = none := by
      rw [signed, many_eq_nil (spaced_eq_none hsolid rfl)]
      simp [power, hatom]
    simp [expression, chain, hsigned]

/-! ## Literals -/

theorem NumberHead.solid {cs : List Char} (h : NumberHead cs) (rest : List Char) :
    Solid (cs ++ rest) := by
  obtain ⟨c, cs, rfl, hc⟩ := h
  rcases hc with hc | rfl
  · exact solid_cons (isGap_eq_false (by simp) hc) _
  · exact solid_cons (by decide) _

theorem after_comma_plain {x : Float} (hx : x.isFinite) {rest : List Char} (hrest : Stops rest)
    (fuel : Nat) : ∃ e, after (char ',') (spaced (expression (fuel + 2)))
      (',' :: ' ' :: ((plain x).toList ++ rest)) = some (e, rest) ∧
      ∀ vars, e.eval vars = .ok x := by
  obtain ⟨e, he, hval⟩ := expression_plain hx hrest fuel
  refine ⟨e, ?_, hval⟩
  have hspaced := spaced_eq_some ((numberHead_plain hx).solid rest) he hrest.solid
  rw [after_eq (char_cons ',' _), spaced_blank, hspaced]

theorem length_le_braced (xs : List Float) : xs.length ≤ (braced xs).toList.length := by
  rw [braced, String.toList_append, String.toList_append, List.length_append, List.length_append]
  cases xs with
  | nil => exact Nat.zero_le _
  | cons x xs =>
    have hlength := length_le_behindCommas String.toList (xs.map plain)
    rw [List.length_map] at hlength
    rw [List.map_cons, List.length_cons, toList_intercalate_cons, List.length_append]
    show _ ≤ 1 + _ + 1
    omega

theorem array_braced {xs : List Float} (hxs : ∀ x ∈ xs, x.isFinite) {rest : List Char}
    (hrest : Stops rest) {fuel : Nat} (hfuel : xs.length ≤ fuel) :
    ∃ es, array (fuel + 2) ((braced xs).toList ++ rest) = some (es, rest) ∧
      List.Forall₂ (fun x e => ∀ vars, Expr.eval vars e = .ok x) xs es := by
  have htext : ∀ ss : List String, ("\x7b" ++ ", ".intercalate ss ++ "\x7d").toList ++ rest =
      '{' :: ((", ".intercalate ss).toList ++ '}' :: rest) := by
    intro ss
    simp [String.toList_append]
  have hclose : mark '}' ('}' :: rest) = some ((), rest) := mark_cons (by decide) hrest.solid
  rw [braced, htext]
  cases xs with
  | nil =>
    have hnone : spaced (expression (fuel + 2)) ('}' :: rest) = none :=
      spaced_eq_none (solid_cons (by decide) _) (expression_brace _ _)
    refine ⟨[], ?_, .nil⟩
    rw [List.map_nil, String.intercalate_nil, String.toList_empty, List.nil_append, array,
      after_eq (char_cons '{' _)]
    simp [before, sepBy, sepBy1, hnone, hclose]
  | cons x xs =>
    rw [List.forall_mem_cons] at hxs
    -- behind an item stands a comma or the closing brace
    have hbrace : Stops ('}' :: rest) := stops_cons (by simp) _
    have hend : after (char ',') (spaced (expression (fuel + 2))) ('}' :: rest) = none :=
      after_eq_none (char_eq_none (by rintro _ ⟨⟩; decide))
    have hroom : xs.length ≤ fuel + 2 := by
      rw [List.length_cons] at hfuel
      omega
    obtain ⟨es, hes, hall⟩ := many_behindCommas
      (fun x hx _ hbehind => after_comma_plain (hxs.2 x hx) hbehind fuel) hbrace hend hroom
    have hbehind : Stops (behindCommas (fun x => (plain x).toList) xs ++ '}' :: rest) :=
      stops_behindCommas hbrace
    obtain ⟨e, he, hval⟩ := expression_plain hxs.1 hbehind fuel
    refine ⟨e :: es, ?_, .cons hval hall⟩
    have hspaced := spaced_eq_some ((numberHead_plain hxs.1).solid _) he hbehind.solid
    rw [List.map_cons, toList_intercalate_cons, behindCommas_map, List.append_assoc, array,
      after_eq (char_cons '{' _)]
    simp [before, sepBy, sepBy1, hspaced, hes, hclose]

/-- What starts as a number and is read as an expression is read as a literal. -/
theorem NumberHead.literal {cs : List Char} (h : NumberHead cs) {rest : List Char}
    (hrest : Stops rest) {fuel : Nat} {e : Expr}
    (he : expression fuel (cs ++ rest) = some (e, rest)) :
    Grammar.literal fuel (cs ++ rest) = some (.expr e, rest) := by
  have hsolid := h.solid rest
  obtain ⟨c, cs, rfl, hc⟩ := h
  have hquoted : Word.quoted (c :: cs ++ rest) = none := by
    refine Word.quoted_eq_none ?_ _
    rcases hc with hc | rfl
    · rw [← Bool.not_eq_true, isQuote]
      simp only [Bool.or_eq_true, beq_iff_eq]
      rintro (rfl | rfl) <;> exact absurd hc (by decide)
    · decide
  have harray : array fuel (c :: cs ++ rest) = none := by
    have hbrace : c ≠ '{' := by
      rintro rfl
      exact absurd hc (by decide)
    rw [array, List.cons_append]
    exact after_eq_none (if_neg hbrace)
  apply spaced_eq_some hsolid _ hrest.solid
  rw [orElse, hquoted, Option.map_none, orElse, harray, Option.map_none, he]
  rfl

theorem solid_given {g : Given} (hg : g.Finite) (rest : List Char) : Solid (g.text ++ rest) := by
  match g with
  | .value (.number x) => exact (numberHead_plain hg).solid rest
  | .value (.numbers xs) =>
    rw [Given.text, quantityText, braced, String.toList_append, String.toList_append]
    exact solid_cons (by decide) _
  | .order n => exact (numberHead_order n).solid rest

/-- What an attribute is given is read as a literal that stands for it. -/
theorem literal_given {g : Given} (hg : g.Finite) {rest : List Char} (hrest : Stops rest)
    {fuel : Nat} (hfuel : g.text.length ≤ fuel) :
    ∃ v, literal (fuel + 2) (g.text ++ rest) = some (v, rest) ∧ g.Denoted v := by
  match g with
  | .value (.number x) =>
    obtain ⟨e, he, hval⟩ := expression_plain hg hrest fuel
    exact ⟨.expr e, (numberHead_plain hg).literal hrest he, hval⟩
  | .order n =>
    obtain ⟨e, he, hval⟩ := expression_order n hrest fuel
    exact ⟨.expr e, (numberHead_order n).literal hrest he, hval⟩
  | .value (.numbers xs) =>
    have hlength : xs.length ≤ fuel := Nat.le_trans (length_le_braced xs) hfuel
    obtain ⟨es, hes, hall⟩ := array_braced hg hrest hlength
    refine ⟨.array es, ?_, hall⟩
    have hhead : (braced xs).toList = '{' :: ((braced xs).toList.tail) := by
      rw [braced, String.toList_append, String.toList_append]
      rfl
    have hquoted : Word.quoted ((braced xs).toList ++ rest) = none := by
      rw [hhead]
      exact Word.quoted_eq_none (by decide) _
    have hsolid : Solid ((braced xs).toList ++ rest) := solid_given hg rest
    show literal (fuel + 2) ((braced xs).toList ++ rest) = _
    apply spaced_eq_some hsolid _ hrest.solid
    simp [orElse, hquoted, hes]

end Grammar

end Beamline.Deck

import Beamline.Deck.Session
import Beamline.Proofs.Deck.Brackets
import Beamline.Proofs.Deck.RecasedStatements

/-!
# How deep statements nest

A clause is refused where its brackets nest deeper than `maxBracketDepth`, and a statement nests no
deeper than its brackets: chains of operators, signs and powers of any length add no more than six
levels between one bracket and the next.

* `Expr.depth`, `LineItem.depth` : how deep expressions and items of lines nest;
* `nested_expression`, `nested_lineItems`, `nested_definition` : the depth of what is read, and that
  of its brackets;
* `depth_le_of_parse` : the depth of a statement, and that of the brackets of its text.
-/

namespace Beamline.Deck

open Text Grammar

/-! ## Depth -/

namespace Expr

mutual

/-- How deep an expression nests; numbers and variables have one level. -/
def depth : Expr → Nat
  | .number _ => 1
  | .var _ => 1
  | .call _ argument => depth argument + 1
  | .neg e => depth e + 1
  | .chain first rest => max (depth first) (depthOfTails rest) + 1
  | .power operands => depthOf operands + 1

/-- How deep the operands behind the first nest. -/
def depthOfTails : List (Op × Expr) → Nat
  | [] => 0
  | (_, e) :: rest => max (depth e) (depthOfTails rest)

/-- How deep expressions nest. -/
def depthOf : List Expr → Nat
  | [] => 0
  | e :: rest => max (depth e) (depthOf rest)

end

variable {n : Nat}

theorem depthOf_le {es : List Expr} (h : ∀ e ∈ es, e.depth ≤ n) : depthOf es ≤ n := by
  induction es with
  | nil => exact Nat.zero_le n
  | cons e es ih =>
    rw [List.forall_mem_cons] at h
    exact Nat.max_le.2 ⟨h.1, ih h.2⟩

theorem depthOfTails_le {rest : List (Op × Expr)} (h : ∀ o ∈ rest, o.2.depth ≤ n) :
    depthOfTails rest ≤ n := by
  induction rest with
  | nil => exact Nat.zero_le n
  | cons o rest ih =>
    rw [List.forall_mem_cons] at h
    exact Nat.max_le.2 ⟨h.1, ih h.2⟩

/-- The expression has `k` levels more than six for each of `m` brackets. -/
def Within (k : Nat) (e : Expr) (m : Nat) : Prop :=
  e.depth ≤ 6 * m + k

theorem Within.mono {k l m m' : Nat} {e : Expr} (h : e.Within k m) (hk : 6 * m + k ≤ 6 * m' + l) :
    e.Within l m' :=
  Nat.le_trans h hk

end Expr

namespace LineItem

mutual

/-- How deep groups nest in an item of a line; a name has no group. -/
def depth : LineItem → Nat
  | .name .. => 0
  | .group _ _ items => depthOf items + 1

/-- How deep groups nest in the items of a line. -/
def depthOf : List LineItem → Nat
  | [] => 0
  | i :: rest => max (depth i) (depthOf rest)

end

end LineItem

/-- The expressions in the value of an attribute. -/
def Literal.expressions : Literal → List Expr
  | .expr e => [e]
  | .text _ => []
  | .array es => es

/-- The expressions in a statement. -/
def Statement.expressions : Statement → List Expr
  | .assign _ e => [e]
  | .element _ _ attributes => attributes.flatMap fun a => a.2.expressions
  | .line _ _ => []
  | .command _ _ => []

/-- The items of a line, if the statement is one. -/
def Statement.body? : Statement → Option (List LineItem)
  | .line _ items => some items
  | _ => none

/-! ## Expressions -/

section Expressions

variable {inner operand : Scanner Expr} {op : Scanner Op} {k : Nat}

theorem nested_word (hinner : Nested (Expr.Within 6) inner) :
    Nested (Expr.Within 1) (Grammar.word inner) := by
  intro cs e rest h
  obtain ⟨f, mid, _, rfl, hname, h⟩ := flat_name.bind h
  dsimp only at h
  split at h
  · rename_i argument behind hread
    cases h
    -- the brackets of a call are worth the six levels of its argument
    have hcall := hinner.between (S := fun e m => (Expr.call f e).Within 1 m)
      (opensTo_mark (.inl rfl)) (closesTo_mark (.inl rfl))
      fun argument m hargument => by simp only [Expr.Within, Expr.depth] at hargument ⊢; omega
    obtain ⟨m, hwithin, hnests⟩ := hcall hread
    exact ⟨m, hwithin, hname.flat_trans hnests⟩
  · cases h
    exact ⟨0, Nat.le_refl 1, hname⟩

theorem nested_atom (hinner : Nested (Expr.Within 6) inner) :
    Nested (Expr.Within 1) (Grammar.atom inner) :=
  .spaced (.orElse ((flat_magnitude.nested fun _ => trivial).map (R := fun _ _ => True)
      fun _ m _ => show 1 ≤ 6 * m + 1 by omega)
    (.orElse (hinner.between (opensTo_mark (.inl rfl)) (closesTo_mark (.inl rfl))
      fun _ _ h => h.mono (by omega)) (nested_word hinner)))

theorem flat_caret : Flat Grammar.caret := by
  refine .of_nests fun {cs _ rest} h => ?_
  unfold Grammar.caret at h
  split at h
  · cases h
    exact (nests_cons (by decide) _).trans_flat (nests_cons (by decide) _)
  · cases h
    exact nests_cons (by decide) _
  · cases h

theorem flat_sumOp : Flat Grammar.sumOp := by
  refine .of_nests fun {cs _ rest} h => ?_
  unfold Grammar.sumOp at h
  split at h
  · cases h
    exact nests_cons (by decide) _
  · cases h
    exact nests_cons (by decide) _
  · cases h

theorem flat_productOp : Flat Grammar.productOp := by
  refine .of_nests fun {cs _ rest} h => ?_
  unfold Grammar.productOp at h
  split at h
  · cases h
  · cases h
    exact nests_cons (by decide) _
  · cases h
    exact nests_cons (by decide) _
  · cases h

theorem nested_exponentOperand (hinner : Nested (Expr.Within 6) inner) :
    Nested (Expr.Within 2) (exponentOperand inner) := by
  intro cs e rest h
  obtain ⟨_, mid, _, rfl, hcaret, h⟩ := flat_caret.spaced.bind h
  have hminus := (flat_mark (c := '-') rfl).opt mid
  obtain ⟨e, _, m, hwithin, hnests, h⟩ := (nested_atom hinner).bind h
  cases h
  refine ⟨m, ?_, (hcaret.flat_trans hminus).flat_trans hnests⟩
  split
  · exact Nat.succ_le_succ hwithin
  · exact hwithin.mono (by omega)

theorem nested_power (hinner : Nested (Expr.Within 6) inner) (fuel : Nat) :
    Nested (Expr.Within 3) (power inner fuel) := by
  intro cs e rest h
  obtain ⟨first, mid, m, hfirst, hnests, h⟩ := (nested_atom hinner).bind h
  obtain ⟨n, hrest, hnests'⟩ :=
    (nested_exponentOperand hinner).many_forall (fun h hle => h.mono (by omega)) fuel mid
  cases h
  refine ⟨max m n, ?_, hnests.trans hnests'⟩
  split
  · exact hfirst.mono (by omega)
  · refine Nat.succ_le_succ (Expr.depthOf_le (List.forall_mem_cons.2 ⟨hfirst.mono ?_,
      fun e he => (hrest e he).mono ?_⟩)) <;> omega

theorem nested_signed (hinner : Nested (Expr.Within 6) inner) (fuel : Nat) :
    Nested (Expr.Within 4) (signed inner fuel) := by
  intro cs e rest h
  have hsigns := flat_sumOp.spaced.many fuel cs
  obtain ⟨e, _, m, hwithin, hnests, h⟩ := (nested_power hinner fuel).bind h
  cases h
  refine ⟨m, ?_, hsigns.flat_trans hnests⟩
  split
  · exact Nat.succ_le_succ hwithin
  · exact hwithin.mono (by omega)

theorem nested_tail (hop : Flat op) (hoperand : Nested (Expr.Within k) operand) :
    Nested (fun o m => o.2.Within k m) (tail op operand) := by
  intro cs o rest h
  obtain ⟨_, mid, _, rfl, hnests, h⟩ := hop.spaced.bind h
  obtain ⟨e, _, m, hwithin, hnests', h⟩ := hoperand.bind h
  cases h
  exact ⟨m, hwithin, hnests.flat_trans hnests'⟩

/-- A chain adds one level, however long it is. -/
theorem nested_chain (hop : Flat op) (hoperand : Nested (Expr.Within k) operand) (fuel : Nat) :
    Nested (Expr.Within (k + 1)) (chain op operand fuel) := by
  intro cs e rest h
  obtain ⟨first, mid, m, hfirst, hnests, h⟩ := hoperand.bind h
  obtain ⟨n, hrest, hnests'⟩ :=
    (nested_tail hop hoperand).many_forall (fun h hle => h.mono (by omega)) fuel mid
  cases h
  refine ⟨max m n, ?_, hnests.trans hnests'⟩
  split
  · exact hfirst.mono (by omega)
  · refine Nat.succ_le_succ (Nat.max_le.2 ⟨hfirst.mono ?_,
      Expr.depthOfTails_le fun o ho => (hrest o ho).mono ?_⟩) <;> omega

/-- Between one bracket and the next there are a sum, a product, a sign, a power, the sign of an
exponent and an operand. -/
theorem nested_expression (fuel : Nat) : Nested (Expr.Within 6) (expression fuel) := by
  induction fuel with
  | zero => exact nofun
  | succ fuel ih =>
    exact nested_chain flat_sumOp (nested_chain flat_productOp (nested_signed ih fuel) fuel) fuel

end Expressions

/-! ## Lines -/

theorem flat_repeatCount : Flat repeatCount := by
  refine .of_nests fun {cs n rest} h => ?_
  obtain ⟨ds, mid, _, rfl, hnests, h⟩ := flat_digits.spaced.bind h
  dsimp only at h
  split at h
  · obtain ⟨_, _, _, rfl, hnests', h⟩ := (flat_mark (c := '*') rfl).bind h
    cases h
    exact hnests.trans_flat hnests'
  · cases h

/-- Groups nest as deep as their brackets. -/
theorem nested_lineItem {items : Scanner (List LineItem)}
    (hitems : Nested (fun is m => m = LineItem.depthOf is) items) :
    Nested (fun i m => m = i.depth) (lineItem items) := by
  intro cs i rest h
  rw [lineItem_eq] at h
  have hcount := flat_repeatCount.opt cs
  have hminus := (flat_mark (c := '-') rfl).opt (Scanner.opt repeatCount cs).2
  unfold itemBehind at h
  split at h
  · rename_i hread
    cases h
    have hgroup := hitems.between (S := fun is m => m = LineItem.depthOf is + 1)
      (opensTo_mark (.inl rfl)) (closesTo_mark (.inl rfl)) fun _ _ => congrArg (· + 1)
    obtain ⟨m, hm, hnests⟩ := hgroup hread
    exact ⟨m, hm, (hcount.trans_flat hminus).flat_trans hnests⟩
  · obtain ⟨⟨n, mid⟩, hread, heq⟩ := Option.map_eq_some_iff.1 h
    cases heq
    exact ⟨0, rfl, (hcount.trans_flat hminus).trans_flat (flat_name.spaced.nests hread)⟩

theorem nested_lineItems (fuel : Nat) :
    Nested (fun is m => m = LineItem.depthOf is) (lineItems fuel) := by
  induction fuel with
  | zero => exact nofun
  | succ fuel ih =>
    exact (nested_lineItem ih).sepBy1 rfl (fun i is m n hm hn => by rw [hm, hn]; rfl)
      (flat_mark (c := ',') rfl) fuel

/-! ## Statements -/

theorem flat_equals : Flat equals :=
  Nested.spaced (.orElse (.after (flat_char (c := '=') rfl) (flat_char (c := ':') rfl))
    (flat_char (c := '=') rfl))

/-- The expressions of a thing are within the brackets of its text. -/
def AllWithin (es : List Expr) (m : Nat) : Prop :=
  ∀ e ∈ es, e.Within 6 m

theorem AllWithin.mono {es : List Expr} {m n : Nat} (h : AllWithin es m) (hle : m ≤ n) :
    AllWithin es n :=
  fun e he => (h e he).mono (by omega)

theorem nested_array (fuel : Nat) : Nested AllWithin (array fuel) :=
  ((nested_expression fuel).spaced.sepBy (L := AllWithin) nofun
      (forall_cons_max fun h hle => h.mono (by omega)) (flat_char (c := ',') rfl) fuel).between
    (opensTo_char (.inr rfl)) (closesTo_mark (.inr rfl))
      fun _ m h => AllWithin.mono h (Nat.le_succ m)

theorem nested_literal (fuel : Nat) :
    Nested (fun v m => AllWithin v.expressions m) (Grammar.literal fuel) :=
  .spaced (.orElse ((flat_quoted.nested (R := fun _ _ => True) fun _ => trivial).map
      fun _ _ _ => nofun)
    (.orElse ((nested_array fuel).map fun _ _ => id)
      ((nested_expression fuel).map fun _ _ h => by
        simpa [AllWithin, Literal.expressions] using h)))

theorem nested_setting (fuel : Nat) :
    Nested (fun a m => AllWithin a.2.expressions m) (setting fuel) := by
  intro cs a rest h
  obtain ⟨_, _, _, rfl, hkey, h⟩ := flat_name.spaced.bind h
  obtain ⟨_, _, _, rfl, hequals, h⟩ := flat_equals.bind h
  obtain ⟨v, _, m, hholds, hnests, h⟩ := (nested_literal fuel).bind h
  cases h
  exact ⟨m, hholds, (hkey.trans_flat hequals).flat_trans hnests⟩

/-- A statement whose text has brackets that nest `m` deep. -/
structure Fits (st : Statement) (m : Nat) : Prop where
  expressions : AllWithin st.expressions m
  body : ∀ items ∈ st.body?, m = LineItem.depthOf items + 1

theorem nested_assignment (fuel : Nat) : Nested Fits (Grammar.assignment fuel) := by
  intro cs st rest h
  obtain ⟨_, _, _, rfl, hname, h⟩ := flat_name.spaced.bind h
  obtain ⟨_, _, _, rfl, hequals, h⟩ := flat_equals.bind h
  obtain ⟨e, _, m, hwithin, hnests, h⟩ := (nested_expression fuel).bind h
  cases h
  exact ⟨m, ⟨by simpa [AllWithin, Statement.expressions] using hwithin, nofun⟩,
    (hname.trans_flat hequals).flat_trans hnests⟩

theorem nested_definition (fuel : Nat) : Nested Fits (definition fuel) := by
  intro cs st rest h
  have hlabel := flat_name.spaced.before (flat_mark (c := ':') rfl)
  obtain ⟨label, _, _, rfl, hlabel, h⟩ := hlabel.bind h
  obtain ⟨keyword, mid, _, rfl, hkeyword, h⟩ := flat_name.spaced.bind h
  dsimp only at h
  split at h
  · have hbody := ((nested_lineItems fuel).between
      (S := fun is m => m = LineItem.depthOf is + 1) (opensTo_mark (.inl rfl))
      (closesTo_mark (.inl rfl)) fun _ _ => congrArg (· + 1)).after flat_equals
    obtain ⟨items, _, m, hm, hnests, h⟩ := hbody.bind h
    cases h
    refine ⟨m, ⟨by simp [AllWithin, Statement.expressions], ?_⟩,
      (hlabel.trans_flat hkeyword).flat_trans hnests⟩
    rintro _ ⟨⟩
    exact hm
  · obtain ⟨m, hattributes, hnests⟩ := ((nested_setting fuel).after
      (flat_mark (c := ',') rfl)).many_forall (fun h hle => h.mono hle) fuel mid
    cases h
    refine ⟨m, ⟨fun e he => ?_, nofun⟩, (hlabel.trans_flat hkeyword).flat_trans hnests⟩
    obtain ⟨a, ha, he⟩ := List.mem_flatMap.1 he
    exact hattributes a ha e he

/-- The words of a command need not close their brackets, but there is no expression in them. -/
theorem statement_cases {fuel : Nat} {cs rest : List Char} {st : Statement}
    (h : statement fuel cs = some (st, rest)) :
    (∃ m, Fits st m ∧ Nests m cs rest) ∨ ∃ keyword arguments, st = .command keyword arguments := by
  unfold statement Scanner.orElse at h
  split at h
  · rename_i hread
    exact .inl (nested_assignment fuel (hread.trans h))
  · split at h
    · rename_i hread
      exact .inl (nested_definition fuel (hread.trans h))
    · obtain ⟨⟨keyword, mid⟩, -, h⟩ := Option.bind_eq_some_iff.1 h
      cases h
      exact .inr ⟨_, _, rfl⟩

theorem fits_of_parse {cs : List Char} {st : Statement} (h : parse cs = .ok st) :
    Fits st (bracketDepth cs) := by
  unfold parse at h
  split at h
  · cases h
  · rename_i hread
    split at h
    · rename_i hrest
      cases h
      rcases statement_cases hread with ⟨m, hfits, hnests⟩ | ⟨keyword, arguments, rfl⟩
      · rwa [hnests.bracketDepth_eq hrest]
      · exact ⟨nofun, nofun⟩
    · cases h

/-- The bracket limit bounds how deep a statement nests, whatever its length. No expression in it
is deeper than six levels for each bracket around it and six more, the groups of a line nest as deep
as its brackets do, the outermost of them apart, and so a clause that is not refused for its
brackets has no expression of more than `390` levels and fewer than `64` levels of groups. -/
theorem depth_le_of_parse {cs : List Char} {st : Statement} (h : parse cs = .ok st) :
    (∀ e ∈ st.expressions, e.depth ≤ 6 * (bracketDepth cs + 1)) ∧
    (∀ items ∈ st.body?, LineItem.depthOf items + 1 = bracketDepth cs) ∧
    ∀ (d : Dialect) (s : Session) (line : Nat),
      s.clause d ⟨line, cs⟩ = .error (s.fail line (.tooDeep maxBracketDepth)) ∨
      (∀ e ∈ st.expressions, e.depth ≤ 390) ∧ ∀ items ∈ st.body?, LineItem.depthOf items < 64 := by
  obtain ⟨hexpressions, hbody⟩ := fits_of_parse h
  refine ⟨fun e he => hexpressions e he, fun items hitems => (hbody items hitems).symm,
    fun d s line => ?_⟩
  by_cases hdeep : maxBracketDepth < bracketDepth cs
  · exact .inl (if_pos hdeep)
  · rw [maxBracketDepth] at hdeep
    refine .inr ⟨fun e he => (hexpressions e he).trans (by omega), fun items hitems => ?_⟩
    have := hbody items hitems
    omega

/-- An assignment with all six levels twice. -/
def nestedCall : List Char :=
  "X = A + A * -A ^ -F(A + A * -A ^ -A)".toList

theorem depths_nestedCall : bracketDepth nestedCall = 1 ∧
    (parse nestedCall).toOption.map (fun st => st.expressions.map Expr.depth) = some [12] := by
  decide +kernel

/-- `depth_le_of_parse` for an assignment that is as deep as its brackets allow. -/
theorem depth_le_of_parse_nestedCall : ∃ st, parse nestedCall = .ok st ∧
    (∀ e ∈ st.expressions, e.depth ≤ 6 * (bracketDepth nestedCall + 1)) ∧
    ∃ e ∈ st.expressions, e.depth = 6 * (bracketDepth nestedCall + 1) := by
  obtain ⟨hdepth, hparse⟩ := depths_nestedCall
  obtain ⟨st, hst, hlevels⟩ := Option.map_eq_some_iff.1 hparse
  rw [toOption_eq_some] at hst
  obtain ⟨e, he, hlevel⟩ := List.mem_map.1 (show 12 ∈ st.expressions.map Expr.depth by
    rw [hlevels]
    exact List.mem_singleton_self _)
  refine ⟨st, hst, (depth_le_of_parse hst).1, e, he, ?_⟩
  rw [hlevel, hdepth]

end Beamline.Deck

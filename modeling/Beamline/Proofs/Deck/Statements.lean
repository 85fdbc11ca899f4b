import Beamline.Proofs.Deck.Expressions

/-!
# Statements that read back

* `reads_items` : the items of a line read back, with their counts and groups;
* `literal_reads`, `setting_reads` : so do the values of attributes, and the attributes;
* `parse_statement` : and so does every statement that the grammar can express.
-/

namespace Beamline.Deck

open Text Text.Scanner Grammar

namespace Layout

variable {l : Layout} {fuel : Nat} {cs rest : List Char}

/-! ## Texts behind commas -/

section Behind

variable {α : Type} (l : Layout) (text : α → List Char) {as : List α}

theorem length_le_length_behind {a : α} (ha : a ∈ as) :
    (text a).length ≤ (l.behind text as).length := by
  have := length_le_length_flatMap (fun a => l.token [','] ++ text a) ha
  rw [List.length_append] at this
  rw [behind]
  omega

theorem stops_behind (as : List α) (hrest : Stops rest) : Stops (l.behind text as ++ rest) := by
  cases as with
  | nil => exact hrest
  | cons a as => exact stops_cons (by simp) _

theorem stops_behind_nil (as : List α) : Stops (l.behind text as) := by
  have := stops_behind l text as stops_nil
  rwa [List.append_nil] at this

/-- What reads back behind a comma is read one after the other. -/
theorem many_behind {p : Scanner α} (hread : ∀ a ∈ as, ∀ rest, Stops rest →
      p (l.token [','] ++ (text a ++ rest)) = some (a, rest))
    (hrest : Stops rest) (hend : p rest = none) (hlen : (l.behind text as).length ≤ fuel) :
    many p fuel (l.behind text as ++ rest) = (as, rest) := by
  refine many_flatMap_self ?_ (fun _ _ _ => stops_cons (by simp) _) hrest hend ?_
  · intro a ha rest hrest
    rw [List.append_assoc]
    exact hread a ha rest hrest
  · have : as.length ≤ (l.behind text as).length :=
      length_le_of_pos (fun a => l.token [','] ++ text a) fun _ _ => Nat.succ_pos _
    exact this.trans hlen

end Behind

/-! ## Items -/

section Items

variable {inner : Scanner (List LineItem)} {count : Nat} {reversed : Bool} {i : LineItem}
  {items : List LineItem}

/-- The text starts with a name or a bracket. -/
def TargetHead (cs : List Char) : Prop :=
  ∃ c rest, cs = c :: rest ∧ (isPlainStart c ∨ c = '(')

theorem targetHead_name {s : String} (hs : isPlainName s) (rest : List Char) :
    TargetHead (l.token s.toList ++ rest) := by
  obtain ⟨c, cs, h, hc, -⟩ := isPlainName_iff.1 hs
  rw [h]
  exact ⟨c, _, rfl, .inl hc⟩

theorem targetHead_bracketed (cs rest : List Char) : TargetHead (l.bracketed cs ++ rest) :=
  ⟨'(', _, rfl, .inr rfl⟩

/-- What starts with a name or a bracket, perhaps behind a minus sign, opens and is no count. -/
theorem TargetHead.signed (h : TargetHead cs) (reversed : Bool) :
    ∃ c rest, (if reversed then l.token ['-'] else []) ++ cs = c :: rest ∧ isOpening c ∧
      c.isDigit = false := by
  obtain ⟨c, cs, rfl, hc⟩ := h
  cases reversed with
  | true => exact ⟨'-', _, rfl, by decide, by decide⟩
  | false =>
    refine ⟨c, cs, rfl, ?_, ?_⟩
    · rcases hc with hc | rfl
      · simp [isOpening, hc]
      · decide
    · rcases hc with hc | rfl
      · exact not_isDigit_of_isPlainStart hc
      · decide

theorem opens_digitsOfNat (n level : Nat) : Opens level (Decimal.digitsOfNat n) := by
  obtain ⟨d, ds, hds⟩ := List.exists_cons_of_ne_nil (Decimal.digitsOfNat_ne_nil n)
  have hd : d.isDigit := Decimal.isDigit_of_mem_digitsOfNat (by rw [hds]; exact List.mem_cons_self)
  exact ⟨d, ds, hds, by simp [isOpening, hd], fun _ => ne_of_test hd (by decide)⟩

theorem opens_times (h : TargetHead cs) (count : Nat) (reversed : Bool) :
    Opens 0 (l.times count reversed ++ cs) := by
  rw [times, List.append_assoc]
  by_cases hone : count = 1
  · obtain ⟨c, rest, heq, hc, -⟩ := h.signed (l := l) reversed
    rw [if_pos hone, List.nil_append]
    exact ⟨c, rest, heq, hc, by omega⟩
  · rw [if_neg hone]
    exact (((opens_digitsOfNat count 0).append _).append _).append _

theorem opt_repeatCount (hcount : count < 0x10000000000000000) (h : TargetHead cs) :
    opt repeatCount (l.times count reversed ++ cs) = (if count = 1 then none else some count,
      (if reversed then l.token ['-'] else []) ++ cs) := by
  obtain ⟨c, tail, heq, hopen, hdigit⟩ := h.signed (l := l) reversed
  have hsolid : Solid (c :: tail) :=
    solid_cons (isGap_eq_false (by simp [isOpening, isPlainStart]) hopen) _
  rw [times, List.append_assoc, heq]
  by_cases hone : count = 1
  · have hnone : repeatCount (c :: tail) = none := by
      rw [repeatCount, spaced_eq_none hsolid (by simp [digits, hdigit])]
      rfl
    rw [if_pos hone, if_pos hone, List.nil_append, opt, hnone]
  · have hdigits : spaced digits (l.token (Decimal.digitsOfNat count) ++
        (l.token ['*'] ++ c :: tail)) =
        some (Decimal.digitsOfNat count, l.token ['*'] ++ c :: tail) := by
      refine spaced_token (((opens_digitsOfNat count 0).append _).solid _) ?_
        (solid_cons (by decide) _)
      refine Word.digits_append (Decimal.digitsOfNat_ne_nil count)
        (fun c hc => Decimal.isDigit_of_mem_digitsOfNat hc) ?_
      exact head_gap (fun _ hc => (isGap_breaks hc).2.1) (by rintro _ ⟨⟩; decide)
    have hmark := mark_token (l := l) (show isGap '*' = false by decide) hsolid
    rw [if_neg hone, if_neg hone, List.append_assoc, opt, repeatCount, hdigits]
    simp [Decimal.natOfDigits_digitsOfNat, hcount, hmark]

theorem TargetHead.opt_minus (h : TargetHead cs) (reversed : Bool) :
    opt (mark '-') ((if reversed then l.token ['-'] else []) ++ cs) =
      (if reversed then some () else none, cs) := by
  obtain ⟨c, cs, rfl, hc⟩ := h
  have hsolid : Solid (c :: cs) := by
    rcases hc with hc | rfl
    · exact solid_cons (isGap_eq_false (by simp [isPlainStart]) hc) _
    · exact solid_cons (by decide) _
  cases reversed with
  | true => rw [if_pos rfl, if_pos rfl, opt, mark_token (by decide) hsolid]
  | false =>
    have hminus : mark '-' (c :: cs) = none := by
      refine mark_eq_none hsolid ?_
      rintro _ ⟨⟩
      rcases hc with hc | rfl
      · exact ne_of_test hc (by decide)
      · decide
    rw [if_neg Bool.false_ne_true, if_neg Bool.false_ne_true, List.nil_append, opt, hminus]

theorem getD_count (count : Nat) : (if count = 1 then none else some count).getD 1 = count := by
  split_ifs with hone
  · exact hone.symm
  · rfl

theorem isSome_minus (reversed : Bool) :
    (if reversed then some () else none).isSome = reversed := by
  cases reversed <;> rfl

/-- A count and a minus sign are read in front of a group. -/
theorem lineItem_group (hcount : count < 0x10000000000000000) (h : TargetHead cs)
    (hgroup : between (mark '(') inner (mark ')') cs = some (items, rest)) :
    lineItem inner (l.times count reversed ++ cs) = some (.group count reversed items, rest) := by
  simp only [lineItem, opt_repeatCount hcount h, h.opt_minus reversed, hgroup, getD_count,
    isSome_minus]

/-- And so they are in front of a name. -/
theorem lineItem_target {name : String} (hcount : count < 0x10000000000000000)
    (h : TargetHead cs) (hgroup : between (mark '(') inner (mark ')') cs = none)
    (hname : spaced Word.name cs = some (name, rest)) :
    lineItem inner (l.times count reversed ++ cs) = some (.name count reversed name, rest) := by
  simp only [lineItem, opt_repeatCount hcount h, h.opt_minus reversed, hgroup, hname, getD_count,
    isSome_minus, Option.map_some]

/-- Lists of items with shorter texts read back. -/
def ItemsReadBelow (l : Layout) (fuel : Nat) : Prop :=
  ∀ items : List LineItem, items ≠ [] → (∀ i ∈ items, i.Expressible) →
    (l.itemsOf items).length ≤ fuel → ∀ rest, Stops rest → mark ',' rest = none →
      lineItems fuel (l.itemsOf items ++ rest) = some (items, rest)

theorem opens_item (hi : i.Expressible) : Opens 0 (l.item i) := by
  cases hi with
  | @name count reversed name _ hname =>
    have hhead := targetHead_name (l := l) hname []
    rw [List.append_nil] at hhead
    exact opens_times hhead count reversed
  | @group count reversed items _ _ _ =>
    have hhead := targetHead_bracketed (l := l) (l.itemsOf items) []
    rw [List.append_nil] at hhead
    exact opens_times hhead count reversed

theorem opens_itemsOf (hne : items ≠ []) (hitems : ∀ i ∈ items, i.Expressible) :
    Opens 0 (l.itemsOf items) := by
  obtain ⟨i, items, rfl⟩ := List.exists_cons_of_ne_nil hne
  exact (opens_item (hitems i (by simp))).append _

theorem mark_close (rest : List Char) : mark ',' (l.token [')'] ++ rest) = none :=
  mark_eq_none (solid_cons (by decide) _) (by rintro _ ⟨⟩; decide)

/-- Items in brackets are read between them. -/
theorem between_items (ih : ItemsReadBelow l fuel) (hne : items ≠ [])
    (hitems : ∀ i ∈ items, i.Expressible) (hlen : (l.itemsOf items).length ≤ fuel)
    (hrest : Solid rest) :
    between (mark '(') (lineItems fuel) (mark ')') (l.bracketed (l.itemsOf items) ++ rest) =
      some (items, rest) := by
  refine between_bracketed (opens_itemsOf hne hitems).solid (fun rest => ?_) hrest
  exact ih items hne hitems hlen _ (stops_token (by simp) rest) (mark_close rest)

theorem reads_item (ih : ItemsReadBelow l fuel) (hi : i.Expressible)
    (hlen : (l.item i).length ≤ fuel + 1) (hrest : Stops rest) :
    lineItem (lineItems fuel) (l.item i ++ rest) = some (i, rest) := by
  cases hi with
  | @name count reversed name hcount hname =>
    rw [item, List.append_assoc]
    refine lineItem_target hcount (targetHead_name hname rest) (after_eq_none ?_) ?_
    · rw [token_append]
      exact mark_name hname (by decide) _
    · exact spaced_name_token hname hrest.solid (follows_of_stops hrest 0).ends
  | @group count reversed items hcount hne hitems =>
    rw [item, List.length_append] at hlen
    have hshort := length_bracketed (l := l) (l.itemsOf items)
    rw [item, List.append_assoc]
    exact lineItem_group hcount (targetHead_bracketed _ rest)
      (between_items ih hne hitems (by omega) hrest.solid)

/-- The items of a line read back. -/
theorem reads_items (fuel : Nat) : ItemsReadBelow l fuel := by
  induction fuel with
  | zero =>
    intro items hne hitems hlen
    have := (opens_itemsOf (l := l) hne hitems).length_pos
    omega
  | succ fuel ih =>
    intro items hne hitems hlen rest hrest hcomma
    obtain ⟨first, items, rfl⟩ := List.exists_cons_of_ne_nil hne
    rw [List.forall_mem_cons] at hitems
    rw [itemsOf, itemsBehind_eq, List.length_append] at hlen
    have hpos := (opens_item (l := l) hitems.1).length_pos
    have hread : ∀ i ∈ items, ∀ rest, Stops rest → after (mark ',') (lineItem (lineItems fuel))
        (l.token [','] ++ (l.item i ++ rest)) = some (i, rest) := by
      intro i hi rest hrest
      have hshort := length_le_length_behind l l.item hi
      have hsolid := (opens_item (l := l) (hitems.2 i hi)).solid rest
      rw [after_eq (mark_token (by decide) hsolid)]
      exact reads_item ih (hitems.2 i hi) (by omega) hrest
    have hmany := many_behind l l.item hread hrest (after_eq_none hcomma)
      (show (l.behind l.item items).length ≤ fuel by omega)
    have hfirst := reads_item ih hitems.1 (by omega) (stops_behind l l.item items hrest)
    rw [itemsOf, itemsBehind_eq, List.append_assoc, lineItems, sepBy1, hfirst]
    simp [hmany]

end Items

/-! ## Values of attributes -/

section Literals

variable {v : Literal} {e : Expr} {es : List Expr}

theorem quoted_eq_none (h : Opens 0 cs) (rest : List Char) : Word.quoted (cs ++ rest) = none := by
  obtain ⟨c, cs, rfl, hc, -⟩ := h
  refine Word.quoted_eq_none ?_ _
  have hdouble : c ≠ '"' := ne_of_test hc (by decide)
  have hsingle : c ≠ '\'' := ne_of_test hc (by decide)
  simp [isQuote, hdouble, hsingle]

theorem array_eq_none (h : Opens 0 cs) (rest : List Char) : array fuel (cs ++ rest) = none :=
  after_eq_none (char_eq_none (h.head_ne (by decide) rest))

/-- An expression is read with the gap in front of it. -/
theorem spaced_expression (he : e.Expressible) (hlen : (l.expr e).length ≤ fuel)
    (hrest : Stops rest) :
    spaced (expression fuel) (l.gap ++ (l.expr e ++ rest)) = some (e, rest) := by
  rw [spaced_append l.gapped]
  exact spaced_eq_some ((opens_expr_zero he).solid rest)
    (reads_expression fuel e he hlen rest (follows_of_stops hrest 0)) hrest.solid

theorem reads_array_nil (hrest : Stops rest) :
    array fuel (l.literal (.array []) ++ rest) = some ([], rest) := by
  have hnone : spaced (expression fuel) (l.gap ++ (l.token ['}'] ++ rest)) = none := by
    rw [spaced_append l.gapped]
    exact spaced_eq_none (solid_cons (by decide) _) (expression_brace _ _)
  have hclose : mark '}' (l.gap ++ (l.token ['}'] ++ rest)) = some ((), rest) := by
    rw [mark, spaced_append l.gapped]
    exact mark_token (by decide) hrest.solid
  rw [literal, List.append_assoc, token_append, array, List.singleton_append,
    after_eq (char_cons '{' _)]
  simp [before, sepBy, sepBy1, hnone, hclose]

theorem reads_array_cons (hes : ∀ x ∈ e :: es, x.Expressible)
    (hlen : (l.literal (.array (e :: es))).length ≤ fuel) (hrest : Stops rest) :
    array fuel (l.literal (.array (e :: es)) ++ rest) = some (e :: es, rest) := by
  have hbrace : Stops (l.token ['}'] ++ rest) := stops_token (by simp) rest
  have hclose : mark '}' (l.token ['}'] ++ rest) = some ((), rest) :=
    mark_token (by decide) hrest.solid
  rw [List.forall_mem_cons] at hes
  rw [literal, List.length_append, List.length_append, List.length_append] at hlen
  have hread : ∀ x ∈ es, ∀ rest, Stops rest → after (char ',') (spaced (expression fuel))
      (l.token [','] ++ (l.expr x ++ rest)) = some (x, rest) := by
    intro x hx rest hrest
    have hshort := length_le_length_behind l l.expr hx
    rw [token_append, List.singleton_append, after_eq (char_cons ',' _)]
    exact spaced_expression (hes.2 x hx) (by omega) hrest
  have hend : after (char ',') (spaced (expression fuel)) (l.token ['}'] ++ rest) = none :=
    after_eq_none (char_eq_none (by rintro _ ⟨⟩; decide))
  have hmany := many_behind l l.expr hread hbrace hend
    (show (l.behind l.expr es).length ≤ fuel by omega)
  have hfirst := spaced_expression hes.1 (show (l.expr e).length ≤ fuel by omega)
    (stops_behind l l.expr es hbrace)
  rw [literal, List.append_assoc, List.append_assoc, List.append_assoc, token_append, array,
    List.singleton_append, after_eq (char_cons '{' _)]
  simp [before, sepBy, sepBy1, hfirst, hmany, hclose]

/-- The values of attributes read back. -/
theorem reads_literal (hv : v.Expressible) (hlen : (l.literal v).length ≤ fuel)
    (hrest : Stops rest) : Grammar.literal fuel (l.literal v ++ rest) = some (v, rest) := by
  cases v with
  | text s =>
    refine spaced_token (solid_cons (by decide) _) ?_ hrest.solid
    have hquoted := Word.quoted_append hv (l.gap ++ rest)
    rw [String.ofList_toList] at hquoted
    rw [List.cons_append, List.append_assoc, List.singleton_append, orElse, hquoted,
      Option.map_some]
  | expr e =>
    have hopens := opens_expr_zero (l := l) hv
    refine spaced_eq_some (hopens.solid rest) ?_ hrest.solid
    have hread := reads_expression fuel e hv hlen rest (follows_of_stops hrest 0)
    rw [literal, orElse, quoted_eq_none hopens, Option.map_none, orElse, array_eq_none hopens,
      Option.map_none, hread, Option.map_some]
  | array es =>
    have hsome : array fuel (l.literal (.array es) ++ rest) = some (es, rest) := by
      cases es with
      | nil => exact reads_array_nil hrest
      | cons e es => exact reads_array_cons hv hlen hrest
    have hhead : ∃ tail, l.literal (.array es) ++ rest = '{' :: tail := by
      cases es with
      | nil => exact ⟨_, rfl⟩
      | cons e es => exact ⟨_, rfl⟩
    obtain ⟨tail, htail⟩ := hhead
    rw [htail] at hsome ⊢
    refine spaced_eq_some (solid_cons (by decide) _) ?_ hrest.solid
    rw [orElse, Word.quoted_eq_none (by decide), Option.map_none, orElse, hsome, Option.map_some]

theorem solid_literal (hv : v.Expressible) (rest : List Char) : Solid (l.literal v ++ rest) := by
  cases v with
  | text s => exact solid_cons (by decide) _
  | expr e => exact (opens_expr_zero (l := l) hv).solid rest
  | array es =>
    cases es with
    | nil => exact solid_cons (by decide) _
    | cons e es => exact solid_cons (by decide) _

end Literals

/-! ## Keys and labels -/

section Keys

variable {name : String}

theorem equals_eq (l : Layout) : l.equals = l.token [':', '='] ∨ l.equals = l.token ['='] := by
  unfold equals
  split_ifs
  · exact .inl rfl
  · exact .inr rfl

theorem equals_equals (hrest : Solid rest) :
    Grammar.equals (l.equals ++ rest) = some ((), rest) := by
  rcases equals_eq l with h | h
  · rw [h]
    exact spaced_token (solid_cons (by decide) _) (by simp [orElse, after, char]) hrest
  · rw [h]
    exact spaced_token (solid_cons (by decide) _) (by simp [orElse, after, char]) hrest

theorem spaced_name_cons_token (hname : isPlainName name) {c : Char} (hgap : isGap c = false)
    (hc : Word.isNameRest c = false) (rest : List Char) :
    spaced Word.name (l.token name.toList ++ c :: rest) = some (name, c :: rest) :=
  spaced_name_token hname (solid_cons hgap rest) (ends_gap_cons hc rest)

theorem spaced_name_key (hname : isPlainName name) (rest : List Char) :
    spaced Word.name (l.key name ++ rest) = some (name, l.equals ++ rest) := by
  rw [key, List.append_assoc]
  rcases equals_eq l with h | h
  · rw [h]
    exact spaced_name_cons_token hname (by decide) (by decide) _
  · rw [h]
    exact spaced_name_cons_token hname (by decide) (by decide) _

theorem solid_key (hname : isPlainName name) (rest : List Char) : Solid (l.key name ++ rest) := by
  rw [key, List.append_assoc, token_append]
  exact solid_name hname _

theorem spaced_name_label (hname : isPlainName name) (rest : List Char) :
    spaced Word.name (l.label name ++ rest) = some (name, l.token [':'] ++ rest) := by
  rw [label, List.append_assoc]
  exact spaced_name_cons_token hname (by decide) (by decide) _

theorem before_label (hname : isPlainName name) (hrest : Solid rest) :
    before (spaced Word.name) (mark ':') (l.label name ++ rest) = some (name, rest) := by
  simp only [before, spaced_name_label hname, mark_token (show isGap ':' = false by decide) hrest,
    Option.bind_eq_bind, Option.bind_some, Option.pure_def]

end Keys

/-! ## Attributes and arguments -/

theorem reads_setting {a : String × Literal} (hkey : isPlainName a.1) (hv : a.2.Expressible)
    (hlen : (l.setting a).length ≤ fuel) (hrest : Stops rest) :
    after (mark ',') (Grammar.setting fuel) (l.token [','] ++ (l.setting a ++ rest)) =
      some (a, rest) := by
  rw [setting, List.length_append] at hlen
  have hread := reads_literal hv (show (l.literal a.2).length ≤ fuel by omega) hrest
  rw [setting, List.append_assoc, after_eq (mark_token (by decide) (solid_key hkey _)),
    Grammar.setting, spaced_name_key hkey]
  simp [equals_equals (solid_literal hv rest), hread]

theorem solid_quoted (s : String) (rest : List Char) : Solid (l.quoted s ++ rest) :=
  solid_cons (by decide) _

theorem reads_argument {a : Argument} (hkey : ∀ key ∈ a.key, isPlainName key)
    (hword : '"' ∉ a.word.toList) (hrest : Stops rest) :
    after (mark ',') Grammar.argument (l.token [','] ++ (l.argument a ++ rest)) =
      some (a, rest) := by
  obtain ⟨key, word⟩ := a
  have hquoted : spaced (orElse Word.quoted bareWord) (l.quoted word ++ rest) =
      some (word, rest) := by
    refine spaced_token (solid_cons (by decide) _) ?_ hrest.solid
    have hquoted := Word.quoted_append hword (l.gap ++ rest)
    rw [String.ofList_toList] at hquoted
    rw [List.cons_append, List.append_assoc, List.singleton_append, orElse, hquoted]
  rw [argument, List.append_assoc]
  cases key with
  | none =>
    have hnone : before (spaced Word.name) Grammar.equals (l.quoted word ++ rest) = none := by
      rw [before, spaced_eq_none (solid_quoted word rest) (Word.name_eq_none (by decide) _)]
      rfl
    rw [Option.elim_none, List.nil_append,
      after_eq (mark_token (by decide) (solid_quoted word rest)), Grammar.argument, opt, hnone]
    simp [hquoted]
  | some name =>
    have hname : isPlainName name := hkey name rfl
    have hsome : before (spaced Word.name) Grammar.equals (l.key name ++ (l.quoted word ++ rest)) =
        some (name, l.quoted word ++ rest) := by
      simp only [before, spaced_name_key hname, equals_equals (solid_quoted word rest),
        Option.bind_eq_bind, Option.bind_some, Option.pure_def]
    rw [Option.elim_some, after_eq (mark_token (by decide) (solid_key hname _)), Grammar.argument,
      opt, hsome]
    simp [hquoted]

/-! ## Statements -/

theorem statement_gap (fuel : Nat) (cs : List Char) :
    Grammar.statement fuel (l.gap ++ cs) = Grammar.statement fuel cs := by
  simp only [Grammar.statement, orElse, Grammar.assignment, definition, command, before,
    spaced_append l.gapped]

/-- What starts with a label is a definition. -/
theorem statement_label {name : String} (hname : isPlainName name)
    (hrest : ∀ c ∈ rest.head?, c ≠ '=') {st : Statement} {tail : List Char}
    (h : definition fuel (l.label name ++ rest) = some (st, tail)) :
    Grammar.statement fuel (l.label name ++ rest) = some (st, tail) := by
  have hequals : Grammar.equals (l.token [':'] ++ rest) = none := by
    rw [token_append]
    refine equals_colon (head_gap ?_ hrest)
    intro c hc
    exact ne_of_test hc (by decide)
  rw [Grammar.statement, orElse, assignment_eq_none (spaced_name_label hname rest) hequals,
    orElse, h]

theorem statement_assign {name : String} {value : Expr} (hname : isPlainName name)
    (hvalue : value.Expressible) (hlen : (l.expr value).length ≤ fuel) :
    Grammar.statement fuel (l.key name ++ l.expr value) = some (.assign name value, []) := by
  have hread := reads_expression fuel value hvalue hlen [] (follows_of_stops stops_nil 0)
  have hequals := equals_equals (l := l) ((opens_expr_zero (l := l) hvalue).solid [])
  rw [List.append_nil] at hread hequals
  rw [Grammar.statement, orElse, Grammar.assignment, spaced_name_key hname]
  simp [hequals, hread]

/-- A word is read up to the commas behind it. -/
theorem spaced_name_behind {name : String} (hname : isPlainName name) {α : Type}
    (text : α → List Char) (as : List α) :
    spaced Word.name (l.token name.toList ++ l.behind text as) =
      some (name, l.behind text as) := by
  have hstops := stops_behind_nil l text as
  exact spaced_name_token hname hstops.solid (follows_of_stops hstops 0).ends

theorem statement_element {name keyword : String} (hname : isPlainName name)
    (hkeyword : isPlainName keyword) (hline : keyword ≠ "LINE")
    {attributes : List (String × Literal)}
    (hattributes : ∀ a ∈ attributes, isPlainName a.1 ∧ a.2.Expressible)
    (hlen : (l.behind l.setting attributes).length ≤ fuel) :
    Grammar.statement fuel (l.label name ++ (l.token keyword.toList ++
      l.behind l.setting attributes)) = some (.element name keyword attributes, []) := by
  have hread : ∀ a ∈ attributes, ∀ rest, Stops rest → after (mark ',') (Grammar.setting fuel)
      (l.token [','] ++ (l.setting a ++ rest)) = some (a, rest) := by
    intro a ha rest hrest
    exact reads_setting (hattributes a ha).1 (hattributes a ha).2
      ((length_le_length_behind l l.setting ha).trans hlen) hrest
  have hmany := many_behind l l.setting hread stops_nil (after_eq_none rfl) hlen
  rw [List.append_nil] at hmany
  obtain ⟨c, cs, hhead, hc, -⟩ := isPlainName_iff.1 hkeyword
  have hsolid : Solid (l.token keyword.toList ++ l.behind l.setting attributes) := by
    rw [token_append]
    exact solid_name hkeyword _
  refine statement_label hname ?_ ?_
  · rw [hhead]
    rintro _ ⟨⟩
    exact ne_of_test hc (by decide)
  · simp only [definition, before_label hname hsolid, spaced_name_behind hkeyword, hline, hmany,
      Option.bind_eq_bind, Option.bind_some, Option.pure_def, if_false]

theorem statement_line {name : String} (hname : isPlainName name) {items : List LineItem}
    (hne : items ≠ []) (hitems : ∀ i ∈ items, i.Expressible)
    (hlen : (l.itemsOf items).length ≤ fuel) :
    Grammar.statement fuel (l.label name ++ (l.key "LINE" ++ l.bracketed (l.itemsOf items))) =
      some (.line name items, []) := by
  have hline : isPlainName "LINE" := by decide
  have hsolid : Solid (l.bracketed (l.itemsOf items)) := solid_cons (by decide) _
  have hbody : after Grammar.equals (between (mark '(') (lineItems fuel) (mark ')'))
      (l.equals ++ l.bracketed (l.itemsOf items)) = some (items, []) := by
    rw [after_eq (equals_equals hsolid)]
    have := between_items (l := l) (reads_items fuel) hne hitems hlen solid_nil
    rwa [List.append_nil] at this
  refine statement_label hname ?_ ?_
  · rintro _ ⟨⟩
    decide
  · simp only [definition, before_label hname (solid_key hline _), spaced_name_key hline, hbody,
      Option.bind_eq_bind, Option.bind_some, Option.pure_def, if_true]

/-- Behind the keyword of a command stands no sign of another statement. -/
theorem char_behind {α : Type} (text : α → List Char) (as : List α) {c : Char} (hc : c ≠ ',') :
    char c (l.behind text as) = none := by
  cases as with
  | nil => rfl
  | cons a as => exact char_eq_none (by rintro _ ⟨⟩; exact hc.symm)

theorem statement_command {keyword : String} (hkeyword : isPlainName keyword)
    {arguments : List Argument}
    (harguments : ∀ a ∈ arguments, (∀ key ∈ a.key, isPlainName key) ∧ '"' ∉ a.word.toList)
    (hlen : (l.behind l.argument arguments).length ≤ fuel) :
    Grammar.statement fuel (l.token keyword.toList ++ l.behind l.argument arguments) =
      some (.command keyword arguments, []) := by
  have hstops := stops_behind_nil l l.argument arguments
  have hword := spaced_name_behind (l := l) hkeyword l.argument arguments
  have hequals : Grammar.equals (l.behind l.argument arguments) = none := by
    refine spaced_eq_none hstops.solid ?_
    rw [orElse, after_eq_none (char_behind _ _ (by decide)), char_behind _ _ (by decide)]
  have hcolon : mark ':' (l.behind l.argument arguments) = none :=
    spaced_eq_none hstops.solid (char_behind _ _ (by decide))
  have hdefinition : definition fuel (l.token keyword.toList ++
      l.behind l.argument arguments) = none := by
    simp [definition, before, hword, hcolon]
  have hread : ∀ a ∈ arguments, ∀ rest, Stops rest → after (mark ',') Grammar.argument
      (l.token [','] ++ (l.argument a ++ rest)) = some (a, rest) := by
    intro a ha rest hrest
    exact reads_argument (harguments a ha).1 (harguments a ha).2 hrest
  have hmany := many_behind l l.argument hread stops_nil (after_eq_none rfl) hlen
  rw [List.append_nil] at hmany
  rw [Grammar.statement, orElse, assignment_eq_none hword hequals, orElse, hdefinition]
  simp only [command, hword, hmany, Option.bind_eq_bind, Option.bind_some, Option.pure_def]

end Layout

/-- What the grammar can express reads back: the text of a statement, in any layout, is read as
that statement. -/
theorem parse_statement (l : Layout) {st : Statement} (h : st.Expressible) :
    parse (l.statement st) = .ok st := by
  apply parse_eq_ok
  cases st with
  | assign name value =>
    obtain ⟨hname, hvalue⟩ := h
    rw [Layout.statement, Layout.statement_gap]
    refine Layout.statement_assign hname hvalue ?_
    simp only [List.length_append]
    omega
  | element name keyword attributes =>
    obtain ⟨hname, hkeyword, hline, hattributes⟩ := h
    rw [Layout.statement, Layout.statement_gap]
    refine Layout.statement_element hname hkeyword hline hattributes ?_
    simp only [List.length_append]
    omega
  | line name items =>
    obtain ⟨hname, hne, hitems⟩ := h
    rw [Layout.statement, Layout.statement_gap]
    refine Layout.statement_line hname hne hitems ?_
    have := Layout.length_bracketed (l := l) (l.itemsOf items)
    simp only [List.length_append]
    omega
  | command keyword arguments =>
    obtain ⟨hkeyword, harguments⟩ := h
    rw [Layout.statement, Layout.statement_gap]
    refine Layout.statement_command hkeyword harguments ?_
    simp only [List.length_append]
    omega

example : String.ofList ((Layout.deck [] gap_nil false true).statement
    (.line "L" [.group 2 true [.name 1 false "A", .name 3 true "B"], .name 1 true "C"])) =
      "L:LINE:=(2*-(A,3*-B),-C)" := by
  decide +kernel

/-- A sum in a product, behind a minus sign, and a power of a call. -/
def gradient : Expr :=
  .chain (.neg (.chain (.var "A") [(.add, .number 2)]))
    [(.mul, .number 0.5), (.div, .power [.call "SQRT" (.var "B"), .neg (.var "X")])]

theorem parse_statement_gradient :
    String.ofList ((Layout.deck [' '] (gap_replicate 1) true false).statement
      (.assign "K1" gradient)) = " K1 = - ( A + 2 ) * 0.5 / SQRT ( B ) ** - X " ∧
    String.ofList ((Layout.deck [] gap_nil false true).statement (.assign "K1" gradient)) =
      "K1:=-(A+2)*0.5/SQRT(B)^-X" ∧
    parse ((Layout.deck [] gap_nil false true).statement (.assign "K1" gradient)) =
      .ok (.assign "K1" gradient) := by
  have htwo : IsMagnitude 2 := ⟨by decide +kernel, by decide +kernel⟩
  have hhalf : IsMagnitude 0.5 := ⟨by decide +kernel, by decide +kernel⟩
  have hsum : (Expr.chain (.var "A") [(.add, .number 2)]).Expressible := by
    refine .chain (List.cons_ne_nil _ _)
      (show ∀ o ∈ [(Op.add, Expr.number 2)], o.1.strength = 0 by simp [Op.strength])
      (.var (by decide)) ?_
    simpa using Expr.Expressible.number htwo
  have hpower : (Expr.power [.call "SQRT" (.var "B"), .neg (.var "X")]).Expressible := by
    refine .power (List.cons_ne_nil _ _) (.call (by decide) (.var (by decide))) ?_
    simpa using Expr.Expressible.neg (.var (by decide))
  have hgradient : gradient.Expressible := by
    refine .chain (List.cons_ne_nil _ _) (show ∀ o ∈ _, Op.strength (Prod.fst o) = 1 from ?_)
      (.neg hsum) ?_
    · simp [Op.strength]
    · simpa using And.intro (Expr.Expressible.number hhalf) hpower
  exact ⟨by decide +kernel, by decide +kernel,
    parse_statement _ (show (Statement.assign "K1" gradient).Expressible from
      ⟨by decide, hgradient⟩)⟩

end Beamline.Deck

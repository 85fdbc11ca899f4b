import Beamline.Proofs.Deck.Value

/-!
# Statements that are read as written

* `Deck.parse_element` : the definition of an element;
* `Deck.parse_line` : the definition of a line of names;
* `Deck.parse_title`, `Deck.parse_use` : the commands that set the title and the root.
-/

namespace Beamline.Deck

open Text Text.Scanner

namespace Grammar

/-! ## Names with what follows -/

theorem solid_name {s : String} (hs : isPlainName s) (rest : List Char) :
    Solid (s.toList ++ rest) := by
  obtain ⟨c, cs, h, hc, -⟩ := isPlainName_iff.1 hs
  rw [h, List.cons_append]
  exact solid_cons (isGap_eq_false (by simp [isPlainStart]) hc) _

theorem spaced_name {s : String} (hs : isPlainName s) {rest : List Char} (hsolid : Solid rest)
    (hends : Word.Ends rest) : spaced Word.name (s.toList ++ rest) = some (s, rest) :=
  spaced_eq_some (solid_name hs rest) (Word.name_append hs hends) hsolid

theorem spaced_name_cons {s : String} (hs : isPlainName s) {c : Char} (hgap : isGap c = false)
    (hc : Word.isNameRest c = false) (rest : List Char) :
    spaced Word.name (s.toList ++ c :: rest) = some (s, c :: rest) :=
  spaced_name hs (solid_cons hgap rest) (by rintro _ ⟨⟩; exact hc)

theorem equals_cons {rest : List Char} (hrest : Solid rest) :
    equals ('=' :: rest) = some ((), rest) :=
  spaced_eq_some (solid_cons (by decide) rest) (by simp [orElse, after, char]) hrest

/-- A colon in front of something else than `=` is no sign of assignments. -/
theorem equals_colon {cs : List Char} (h : ∀ c ∈ cs.head?, c ≠ '=') : equals (':' :: cs) = none := by
  apply spaced_eq_none (solid_cons (by decide) _)
  rw [orElse, after_eq (char_cons ':' cs), char_eq_none h]
  exact char_eq_none (by rintro _ ⟨⟩; decide)

theorem equals_comma (cs : List Char) : equals (',' :: cs) = none :=
  spaced_eq_none (solid_cons (by decide) _) (by simp [orElse, after, char])

/-- What starts with a name and no equals sign is no assignment. -/
theorem assignment_eq_none {s : String} {cs rest : List Char}
    (hname : spaced Word.name cs = some (s, rest)) (hequals : equals rest = none) (fuel : Nat) :
    assignment fuel cs = none := by
  simp [assignment, hname, hequals]

/-! ## Elements -/

theorem toList_assignment (key : String) (g : Given) :
    (g.assignment key).toList = key.toList ++ '=' :: g.text := by
  cases g with
  | value q => cases q <;> simp [Given.assignment, Deck.assignment, Given.text, quantityText,
      String.toList_append]
  | order n => simp [Given.assignment, Given.text, String.toList_append]

theorem setting_assignment {key : String} (hkey : isPlainName key) {g : Given}
    (hg : g.Finite) {rest : List Char} (hrest : Stops rest) {fuel : Nat}
    (hfuel : g.text.length ≤ fuel) :
    ∃ a, setting (fuel + 2) ((g.assignment key).toList ++ rest) = some (a, rest) ∧
      a.1 = key ∧ g.Denoted a.2 := by
  obtain ⟨v, hv, hdenoted⟩ := literal_given hg hrest hfuel
  refine ⟨(key, v), ?_, rfl, hdenoted⟩
  have hname : spaced Word.name (key.toList ++ '=' :: (g.text ++ rest)) =
      some (key, '=' :: (g.text ++ rest)) :=
    spaced_name_cons hkey (by decide) (by decide) _
  rw [toList_assignment, List.append_assoc, List.cons_append, setting, hname]
  simp [equals_cons (solid_given hg rest), hv]

theorem solid_assignment {key : String} (hkey : isPlainName key) (g : Given)
    (rest : List Char) : Solid ((g.assignment key).toList ++ rest) := by
  rw [toList_assignment, List.append_assoc]
  exact solid_name hkey _

/-- The text of attributes, each behind a comma. -/
def settingsText (attributes : List (String × Given)) : List Char :=
  behindCommas (fun a => (a.2.assignment a.1).toList) attributes

theorem length_text_le {attributes : List (String × Given)} {a : String × Given}
    (ha : a ∈ attributes) : a.2.text.length ≤ (settingsText attributes).length := by
  have hle := length_le_length_flatMap (fun a : String × Given =>
    ',' :: ' ' :: (a.2.assignment a.1).toList) ha
  rw [toList_assignment] at hle
  simp only [List.length_cons, List.length_append] at hle
  rw [settingsText, behindCommas]
  omega

theorem many_settings {attributes : List (String × Given)}
    (hattributes : ∀ a ∈ attributes, isPlainName a.1 ∧ a.2.Finite) {fuel : Nat}
    (hfuel : (settingsText attributes).length ≤ fuel) :
    ∃ settings, many (after (mark ',') (setting (fuel + 2))) (fuel + 2)
        (settingsText attributes) = (settings, []) ∧
      List.Forall₂ ReadAs attributes settings := by
  have hread : ∀ a ∈ attributes, ∀ rest, Stops rest →
      ∃ s, after (mark ',') (setting (fuel + 2))
        (',' :: ' ' :: ((a.2.assignment a.1).toList ++ rest)) = some (s, rest) ∧ ReadAs a s := by
    intro a ha rest hrest
    obtain ⟨hkey, hg⟩ := hattributes a ha
    obtain ⟨s, hs, hreadAs⟩ := setting_assignment hkey hg hrest
      (Nat.le_trans (length_text_le ha) hfuel)
    refine ⟨s, ?_, hreadAs⟩
    rw [after_eq (mark_blank (by decide) (solid_assignment hkey a.2 rest)), hs]
  have hlength : attributes.length ≤ fuel + 2 := by
    have := length_le_behindCommas (fun a => (a.2.assignment a.1).toList) attributes
    rw [settingsText] at hfuel
    omega
  obtain ⟨settings, h, hall⟩ := many_behindCommas hread stops_nil rfl hlength
  rw [List.append_nil] at h
  exact ⟨settings, h, hall⟩

/-! ## Lines -/

theorem lineItem_name {s : String} (hs : isPlainName s) {rest : List Char} (hrest : Stops rest)
    (inner : Scanner (List LineItem)) :
    lineItem inner (s.toList ++ rest) = some (.name 1 false s, rest) := by
  have hname := spaced_name hs hrest.solid hrest.ends
  have hsolid := solid_name hs rest
  obtain ⟨c, cs, h, hc, -⟩ := isPlainName_iff.1 hs
  rw [h, List.cons_append] at hname hsolid ⊢
  have hdigit : c.isDigit = false := not_isDigit_of_isPlainStart hc
  have hcount : repeatCount (c :: (cs ++ rest)) = none := by
    rw [repeatCount, spaced_eq_none hsolid (by simp [digits, hdigit])]
    rfl
  have hminus : mark '-' (c :: (cs ++ rest)) = none :=
    mark_eq_none hsolid (by rintro _ ⟨⟩; exact ne_of_test hc (by decide))
  have hgroup : mark '(' (c :: (cs ++ rest)) = none :=
    mark_eq_none hsolid (by rintro _ ⟨⟩; exact ne_of_test hc (by decide))
  simp [lineItem, opt, hcount, hminus, between, after, hgroup, hname]

/-- Names joined by commas are read as the items of a line. -/
theorem lineItems_names {first : String} {names : List String}
    (hnames : ∀ s ∈ first :: names, isPlainName s) {rest : List Char} (hrest : Stops rest)
    (hend : mark ',' rest = none) {fuel : Nat} (hfuel : names.length ≤ fuel) :
    lineItems (fuel + 1) (first.toList ++ (behindCommas String.toList names ++ rest)) =
      some ((first :: names).map (.name 1 false), rest) := by
  rw [List.forall_mem_cons] at hnames
  have hread : ∀ s ∈ names, ∀ behind, Stops behind →
      ∃ i, after (mark ',') (lineItem (lineItems fuel)) (',' :: ' ' :: (s.toList ++ behind)) =
        some (i, behind) ∧ LineItem.name 1 false s = i := by
    intro s hs behind hbehind
    refine ⟨_, ?_, rfl⟩
    rw [after_eq (mark_blank (by decide) (solid_name (hnames.2 s hs) behind)),
      lineItem_name (hnames.2 s hs) hbehind]
  obtain ⟨items, hitems, hall⟩ := many_behindCommas hread hrest (after_eq_none hend) hfuel
  obtain rfl : items = names.map (.name 1 false) := by
    rw [← List.forall₂_map_left_iff, List.forall₂_eq_eq_eq] at hall
    exact hall.symm
  simp [lineItems, sepBy1, lineItem_name hnames.1 (stops_behindCommas hrest), hitems]

theorem lineBody_names {first : String} {names : List String}
    (hnames : ∀ s ∈ first :: names, isPlainName s) {fuel : Nat} (hfuel : names.length ≤ fuel) :
    after equals (between (mark '(') (lineItems (fuel + 1)) (mark ')'))
      ('=' :: '(' :: (first.toList ++ (behindCommas String.toList names ++ [')']))) =
      some ((first :: names).map (.name 1 false), []) := by
  have hclose : mark ')' [')'] = some ((), []) := mark_cons (by decide) solid_nil
  have hcomma : mark ',' [')'] = none :=
    mark_eq_none (solid_cons (by decide) _) (by rintro _ ⟨⟩; decide)
  have hitems := lineItems_names hnames (stops_cons (by simp) []) hcomma hfuel
  have hsolid := solid_name (hnames first (by simp)) (behindCommas String.toList names ++ [')'])
  rw [after_eq (equals_cons (solid_cons (by decide) _)), between,
    after_eq (mark_cons (by decide) hsolid)]
  simp only [before, hitems, hclose, Option.bind_eq_bind, Option.bind_some, Option.pure_def]

/-! ## Definitions -/

/-- What a definition starts with: a name, a colon and a keyword. -/
def labelled (name keyword : String) (rest : List Char) : List Char :=
  name.toList ++ ':' :: ' ' :: (keyword.toList ++ rest)

theorem before_labelled {name keyword : String} (hname : isPlainName name)
    (hkeyword : isPlainName keyword) (rest : List Char) :
    before (spaced Word.name) (mark ':') (labelled name keyword rest) =
      some (name, keyword.toList ++ rest) := by
  have hlabel := spaced_name_cons hname (c := ':') (by decide) (by decide)
    (' ' :: (keyword.toList ++ rest))
  have hmark : mark ':' (':' :: ' ' :: (keyword.toList ++ rest)) =
      some ((), keyword.toList ++ rest) :=
    mark_blank (by decide) (solid_name hkeyword rest)
  simp only [before, labelled, hlabel, hmark, Option.bind_eq_bind, Option.bind_some,
    Option.pure_def]

theorem statement_labelled {name keyword : String} (hname : isPlainName name) {rest : List Char}
    {fuel : Nat} {r : Statement × List Char}
    (h : definition fuel (labelled name keyword rest) = some r) :
    statement fuel (labelled name keyword rest) = some r := by
  have hlabel : spaced Word.name (labelled name keyword rest) =
      some (name, ':' :: ' ' :: (keyword.toList ++ rest)) :=
    spaced_name_cons hname (by decide) (by decide) _
  have hcolon : equals (':' :: ' ' :: (keyword.toList ++ rest)) = none :=
    equals_colon (by rintro _ ⟨⟩; decide)
  rw [statement, orElse, assignment_eq_none hlabel hcolon, orElse, h]

end Grammar

theorem parse_eq_ok {cs : List Char} {st : Statement}
    (h : Grammar.statement (cs.length + 1) cs = some (st, [])) : parse cs = .ok st := by
  simp [parse, h, skipGap]

/-- The definition of an element, without its end. -/
def elementText (name keyword : String) (attributes : List (String × Given)) : String :=
  name ++ ": " ++ ", ".intercalate (keyword :: attributes.map fun a => a.2.assignment a.1)

theorem toList_elementText (name keyword : String) (attributes : List (String × Given)) :
    (elementText name keyword attributes).toList =
      Grammar.labelled name keyword (Grammar.settingsText attributes) := by
  simp only [elementText, String.toList_append, toList_intercalate_cons, behindCommas_map,
    Grammar.settingsText, Grammar.labelled, List.append_assoc]
  rfl

open Grammar in
/-- The definition of an element is read as it was written. -/
theorem parse_element {name keyword : String} (hname : isPlainName name)
    (hkeyword : isPlainName keyword) (hline : keyword ≠ "LINE")
    {attributes : List (String × Given)}
    (hattributes : ∀ a ∈ attributes, isPlainName a.1 ∧ a.2.Finite) :
    ∃ settings, parse (elementText name keyword attributes).toList =
        .ok (.element name keyword settings) ∧ List.Forall₂ ReadAs attributes settings := by
  obtain ⟨fuel, hfuel, hroom⟩ : ∃ fuel,
      (labelled name keyword (settingsText attributes)).length + 1 = fuel + 2 ∧
      (settingsText attributes).length ≤ fuel := by
    refine ⟨(labelled name keyword (settingsText attributes)).length - 1, ?_, ?_⟩ <;>
      · simp only [labelled, List.length_append, List.length_cons]
        omega
  obtain ⟨settings, hmany, hall⟩ := many_settings hattributes hroom
  have hstops : Stops (settingsText attributes) := by
    rw [settingsText, ← List.append_nil (behindCommas _ attributes)]
    exact stops_behindCommas stops_nil
  have hword := spaced_name hkeyword hstops.solid hstops.ends
  rw [toList_elementText]
  refine ⟨settings, parse_eq_ok (statement_labelled hname ?_), hall⟩
  rw [hfuel]
  simp [definition, before_labelled hname hkeyword, hword, hline, hmany]

/-- The definition of a line, without its end. -/
def lineText (name : String) (names : List String) : String :=
  name ++ ": LINE=(" ++ ", ".intercalate names ++ ")"

theorem toList_lineText (name first : String) (names : List String) :
    (lineText name (first :: names)).toList = Grammar.labelled name "LINE"
      ('=' :: '(' :: (first.toList ++ (behindCommas String.toList names ++ [')']))) := by
  simp only [lineText, String.toList_append, toList_intercalate_cons, Grammar.labelled,
    List.append_assoc]
  rfl

open Grammar in
theorem parse_line {name : String} (hname : isPlainName name) {names : List String}
    (hne : names ≠ []) (hnames : ∀ s ∈ names, isPlainName s) :
    parse (lineText name names).toList = .ok (.line name (names.map (.name 1 false))) := by
  obtain ⟨first, names, rfl⟩ := List.exists_cons_of_ne_nil hne
  rw [toList_lineText]
  generalize htext : '=' :: '(' :: (first.toList ++ (behindCommas String.toList names ++ [')'])) =
    rest
  have hroom : names.length ≤ (labelled name "LINE" rest).length := by
    have := length_le_behindCommas String.toList names
    rw [← htext]
    simp only [labelled, List.length_append, List.length_cons]
    omega
  have hbody := lineBody_names hnames hroom
  have hline : isPlainName "LINE" := by decide
  have hword : spaced Word.name ("LINE".toList ++ rest) = some ("LINE", rest) := by
    rw [← htext]
    exact spaced_name_cons hline (by decide) (by decide) _
  apply parse_eq_ok (statement_labelled hname _)
  rw [htext] at hbody
  simp only [definition, before_labelled hname hline, hword, hbody, Option.bind_eq_bind,
    Option.bind_some, Option.pure_def, if_true]

/-! ## Commands -/

open Grammar in
theorem parse_command {keyword : String} (hkeyword : isPlainName keyword) {cs : List Char}
    (hsolid : Solid cs) {a : Argument} (ha : argument cs = some (a, [])) :
    parse (keyword.toList ++ ',' :: ' ' :: cs) = .ok (.command keyword [a]) := by
  generalize htext : keyword.toList ++ ',' :: ' ' :: cs = text
  have hlabel : spaced Word.name text = some (keyword, ',' :: ' ' :: cs) := by
    rw [← htext]
    exact spaced_name_cons hkeyword (by decide) (by decide) _
  have hmark : mark ',' (',' :: ' ' :: cs) = some ((), cs) :=
    mark_blank (by decide) hsolid
  have hcolon : mark ':' (',' :: ' ' :: cs) = none :=
    mark_eq_none (solid_cons (by decide) _) (by rintro _ ⟨⟩; decide)
  have hdefinition : ∀ fuel, definition fuel text = none := by
    intro fuel
    simp [definition, before, hlabel, hcolon]
  have hcommand : command (text.length + 1) text = some (.command keyword [a], []) := by
    have hend : after (mark ',') argument [] = none := after_eq_none rfl
    simp [command, hlabel, many, after, hmark, ha, many_eq_nil hend]
  apply parse_eq_ok
  rw [Grammar.statement, orElse, assignment_eq_none hlabel (equals_comma _), orElse, hdefinition,
    hcommand]

open Grammar in
theorem parse_title {title : List Char} (htitle : '"' ∉ title) :
    parse ("TITLE".toList ++ ',' :: ' ' :: '"' :: (title ++ ['"'])) =
      .ok (.command "TITLE" [⟨none, String.ofList title⟩]) := by
  have hsolid : Solid ('"' :: (title ++ ['"'])) := solid_cons (by decide) _
  have hkey : before (spaced Word.name) equals ('"' :: (title ++ ['"'])) = none := by
    rw [before, spaced_eq_none hsolid (Word.name_eq_none (by decide) _)]
    rfl
  have hword : spaced (orElse Word.quoted bareWord) ('"' :: (title ++ ['"'])) =
      some (String.ofList title, []) := by
    apply spaced_eq_some hsolid _ solid_nil
    rw [orElse, Word.quoted_append htitle]
  apply parse_command (by decide) hsolid
  simp [argument, opt, hkey, hword]

theorem quoted_name {s : String} (hs : isPlainName s) : Word.quoted s.toList = none := by
  obtain ⟨c, cs, h, hc, -⟩ := isPlainName_iff.1 hs
  rw [h]
  exact Word.quoted_eq_none (not_isQuote_of_isPlainRest (isPlainRest_of_isPlainStart hc)) cs

open Grammar in
/-- A plain name needs no quotation marks. -/
theorem bareWord_name {s : String} (hs : isPlainName s) : bareWord s.toList = some (s, []) := by
  have hplain := isPlainRest_of_mem hs
  have hall : ∀ c ∈ s.toList, (c != ',') = true := by
    intro c hc
    exact bne_iff_ne.2 (ne_of_test (hplain c hc) (by decide))
  have htake : s.toList.takeWhile (· != ',') = s.toList := List.takeWhile_eq_self_iff.2 hall
  have hdrop : s.toList.dropWhile (· != ',') = [] := List.dropWhile_eq_nil_iff.2 hall
  have htrim : trim s.toList = s.toList :=
    trim_eq_self (fun c hc => not_isBlank_of_isPlainRest (hplain c (List.mem_of_mem_head? hc)))
      (fun c hc => not_isBlank_of_isPlainRest (hplain c (List.mem_of_getLast? hc)))
  have hne : s.toList ≠ [] := by
    obtain ⟨c, cs, h, -⟩ := isPlainName_iff.1 hs
    simp [h]
  unfold bareWord
  rw [htake, hdrop]
  dsimp only
  rw [htrim, upper_of_isPlainName hs, String.ofList_toList]
  simp [hne]

open Grammar in
theorem parse_use {root : String} (hroot : isPlainName root) :
    parse ("USE".toList ++ ',' :: ' ' :: root.toList) = .ok (.command "USE" [⟨none, root⟩]) := by
  have hsolid : Solid root.toList := by
    have := solid_name hroot []
    rwa [List.append_nil] at this
  have hname : spaced Word.name root.toList = some (root, []) := by
    have := spaced_name hroot solid_nil stops_nil.ends
    rwa [List.append_nil] at this
  have hkey : before (spaced Word.name) equals root.toList = none := by
    rw [before, hname]
    rfl
  have hword : spaced (orElse Word.quoted bareWord) root.toList = some (root, []) := by
    apply spaced_eq_some hsolid _ solid_nil
    rw [orElse, quoted_name hroot, bareWord_name hroot]
  apply parse_command (by decide) hsolid
  simp [argument, opt, hkey, hword]

end Beamline.Deck

import Beamline.Deck.Session
import Beamline.Proofs.Bind
import Beamline.Proofs.Deck.Reversal
import Beamline.Proofs.Deck.Shape

/-!
# The lines of a deck

* `lineDefinitions` : the definitions of lines that a text spells, up to the end of the deck;
* `Session.clause_ok` : what a clause does to the lines of a session;
* `Session.lines_of_clauses` : the lines of a session are those of the definitions, put one after
  the other;
* `Grounded` : lines whose items wait for no reversed form, and `Grounded.settled`;
* `arrange_grounded` : items whose names wait for none are arranged, and the lines stay grounded;
* `foldlM_addLine` : so do definitions that wait for none, one after the other.
-/

namespace Beamline.Deck

open Table

/-! ## What a text spells -/

mutual

/-- The names in an item of a line, in order of appearance. -/
def LineItem.names : LineItem → List String
  | .name _ _ s => [s]
  | .group _ _ items => LineItem.namesOf items

/-- The names in the items of a line, in order of appearance. -/
def LineItem.namesOf : List LineItem → List String
  | [] => []
  | i :: rest => LineItem.names i ++ LineItem.namesOf rest

end

/-- The statement that a clause spells; one that only computes spells none. -/
def spelled? (d : Dialect) (c : Clause) : Option Statement :=
  match Session.calculation? d c with
  | some _ => none
  | none => (parse c.text).toOption

/-- The commands that end a deck. -/
def endings : List String := ["RETURN", "STOP", "EXIT"]

/-- The definitions of lines that clauses spell, up to the end of the deck. -/
def linesOf (d : Dialect) : List Clause → List (String × List LineItem)
  | [] => []
  | c :: rest =>
    match spelled? d c with
    | some (.line name items) => (name, items) :: linesOf d rest
    | some (.command keyword _) => if keyword ∈ endings then [] else linesOf d rest
    | _ => linesOf d rest

/-- The definitions of lines that a text spells, up to the end of the deck. -/
def lineDefinitions (d : Dialect) (text : String) : List (String × List LineItem) :=
  linesOf d (cut d text.toList).clauses

/-- Puts a line of the deck among lines. -/
def addLine (lines : Lines) (l : String × List LineItem) : Except Flaw Lines := do
  let (names, lines) ← arrange lines l.2
  return put l.1 names lines

/-! ## What a clause does to the lines -/

namespace Session

variable {d : Dialect} {s t : Session} {c : Clause}

theorem attempt_eq_ok {α : Type} {line : Nat} {x : Except Flaw α} {a : α} :
    s.attempt line x = .ok a ↔ x = .ok a :=
  mapError_eq_ok

theorem lines_of_defineElement {line : Nat} {name keyword : String}
    {attributes : List (String × Literal)}
    (h : defineElement d s line name keyword attributes = .ok t) : t.lines = s.lines := by
  obtain ⟨e, notes, -, rfl⟩ := shape_of_defineElement h
  rfl

theorem lines_of_command {keyword : String} {arguments : List Argument}
    (h : s.command keyword arguments = some t) : keyword ∉ endings ∧ t.lines = s.lines := by
  unfold command at h
  split at h
  · cases h
    exact ⟨by decide, rfl⟩
  · cases h
    exact ⟨by decide, rfl⟩
  · cases h
  · cases h
  · cases h
  · rename_i hreturn hstop hexit
    cases h
    refine ⟨fun hmem => ?_, rfl⟩
    simp only [endings, List.mem_cons, List.not_mem_nil, or_false] at hmem
    exact hmem.elim hreturn fun hmem => hmem.elim hstop hexit

theorem mem_endings_of_command {keyword : String} {arguments : List Argument}
    (h : s.command keyword arguments = none) : keyword ∈ endings := by
  unfold command at h
  split at h
  · cases h
  · cases h
  · decide
  · decide
  · decide
  · cases h

theorem spelled?_of_calculation {cs : List Char} (h : calculation? d c = some cs) :
    spelled? d c = none := by
  rw [spelled?, h]

/-- A clause that is carried out is not too deep, and it computes only or is that of a statement. -/
theorem clause_eq_ok {next : Option Session} : s.clause d c = .ok next ↔
    bracketDepth c.text ≤ maxBracketDepth ∧
    ((∃ cs r, calculation? d c = some cs ∧ Postfix.run cs s.vars = .ok r ∧
        next = some { s with vars := r.2 }) ∨
      ∃ st, spelled? d c = some st ∧ s.statement d c.line st = .ok next) := by
  unfold clause spelled?
  by_cases hdeep : maxBracketDepth < bracketDepth c.text
  · rw [if_pos hdeep]
    exact ⟨nofun, fun h => absurd hdeep (Nat.not_lt.2 h.1)⟩
  · rw [if_neg hdeep, and_iff_right (Nat.not_lt.1 hdeep)]
    cases hcalculation : calculation? d c with
    | some cs =>
      constructor
      · intro h
        obtain ⟨r, hr, h⟩ := bind_eq_ok.1 h
        cases h
        exact .inl ⟨cs, r, rfl, attempt_eq_ok.1 hr, rfl⟩
      · rintro (⟨cs', r, hcs, hr, rfl⟩ | ⟨st, hst, -⟩)
        · cases hcs
          exact bind_eq_ok.2 ⟨r, attempt_eq_ok.2 hr, rfl⟩
        · cases hst
    | none =>
      constructor
      · intro h
        obtain ⟨st, hst, h⟩ := bind_eq_ok.1 h
        exact .inr ⟨st, toOption_eq_some.2 (attempt_eq_ok.1 hst), h⟩
      · rintro (⟨cs, r, hcs, -⟩ | ⟨st, hst, h⟩)
        · cases hcs
        · exact bind_eq_ok.2 ⟨st, attempt_eq_ok.2 (toOption_eq_some.1 hst), h⟩

theorem clause_of_spelled {next : Option Session} {st : Statement} (h : spelled? d c = some st) :
    s.clause d c = .ok next ↔
      bracketDepth c.text ≤ maxBracketDepth ∧ s.statement d c.line st = .ok next := by
  rw [clause_eq_ok]
  refine and_congr_right fun _ => ⟨?_, fun hst => .inr ⟨st, h, hst⟩⟩
  rintro (⟨cs, r, hcs, -, -⟩ | ⟨st', hst', hs⟩)
  · rw [spelled?_of_calculation hcs] at h
    cases h
  · rw [h] at hst'
    cases hst'
    exact hs

/-- A clause that is carried out computes only, or it is that of a statement. -/
theorem statement_of_clause {next : Option Session} (h : s.clause d c = .ok next) :
    (spelled? d c = none ∧ ∃ vars, next = some { s with vars }) ∨
    ∃ st, spelled? d c = some st ∧ s.statement d c.line st = .ok next := by
  obtain ⟨-, ⟨cs, r, hcs, -, hnext⟩ | h⟩ := clause_eq_ok.1 h
  · exact .inl ⟨spelled?_of_calculation hcs, r.2, hnext⟩
  · exact .inr h

/-- What a clause does to the lines: it spells the definition of a line, whose items are arranged,
or it leaves the lines as they are. -/
theorem clause_ok (h : s.clause d c = .ok (some t)) (rest : List Clause) :
    (∃ name items names lines, linesOf d (c :: rest) = (name, items) :: linesOf d rest ∧
      arrange s.lines items = .ok (names, lines) ∧ t.lines = put name names lines) ∨
    linesOf d (c :: rest) = linesOf d rest ∧ t.lines = s.lines := by
  rw [linesOf]
  rcases statement_of_clause h with ⟨hspelled, vars, ht⟩ | ⟨st, hspelled, h⟩
  · cases ht
    exact .inr ⟨by rw [hspelled], rfl⟩
  · rw [hspelled]
    cases st with
    | assign name value =>
      obtain ⟨x, -, h⟩ := bind_eq_ok.1 h
      cases h
      exact .inr ⟨rfl, rfl⟩
    | element name keyword attributes =>
      obtain ⟨t', ht, h⟩ := bind_eq_ok.1 h
      cases h
      exact .inr ⟨rfl, lines_of_defineElement ht⟩
    | line name items =>
      obtain ⟨t', ht, h⟩ := bind_eq_ok.1 h
      cases h
      obtain ⟨⟨names, lines⟩, harrange, ht⟩ := bind_eq_ok.1 ht
      cases ht
      exact .inl ⟨name, items, names, lines, rfl, attempt_eq_ok.1 harrange, rfl⟩
    | command keyword arguments =>
      obtain ⟨hgoes, hlines⟩ := lines_of_command (Except.ok.inj h)
      exact .inr ⟨if_neg hgoes, hlines⟩

/-- Where a deck ends, no more lines are defined. -/
theorem clause_none (h : s.clause d c = .ok none) (rest : List Clause) :
    linesOf d (c :: rest) = [] := by
  rcases statement_of_clause h with ⟨-, vars, hnone⟩ | ⟨st, hspelled, h⟩
  · cases hnone
  · cases st with
    | assign name value =>
      obtain ⟨x, -, h⟩ := bind_eq_ok.1 h
      cases h
    | element name keyword attributes =>
      obtain ⟨x, -, h⟩ := bind_eq_ok.1 h
      cases h
    | line name items =>
      obtain ⟨x, -, h⟩ := bind_eq_ok.1 h
      cases h
    | command keyword arguments =>
      rw [linesOf, hspelled]
      exact if_pos (mem_endings_of_command (Except.ok.inj h))

/-- The lines of a session that succeeds are those of the definitions, one after the other. -/
theorem lines_of_clauses {cs : List Clause} : ∀ {s t : Session}, s.clauses d cs = .ok t →
    (linesOf d cs).foldlM addLine s.lines = .ok t.lines := by
  induction cs with
  | nil =>
    intro s t h
    cases h
    rfl
  | cons c cs ih =>
    intro s t h
    obtain ⟨next, hclause, h⟩ := bind_eq_ok.1 h
    cases next with
    | none =>
      cases h
      rw [clause_none hclause]
      rfl
    | some s' =>
      rcases clause_ok hclause cs with
        ⟨name, items, names, lines, hlines, harrange, hs'⟩ | ⟨hlines, hs'⟩
      · rw [hlines, List.foldlM_cons]
        refine bind_eq_ok.2 ⟨put name names lines, bind_eq_ok.2 ⟨_, harrange, rfl⟩, ?_⟩
        rw [← hs']
        exact ih h
      · rw [hlines, ← hs']
        exact ih h

end Session

/-! ## Lines that wait for no reversed form -/

/-- `s` is the name of a reversed form that the lines `labels` can lead to. -/
def Derived (labels : List String) (s : String) : Prop :=
  ∃ x ∈ labels, ∃ n, s = reversedName^[n + 1] x

/-- A name that is that of a reversed form only if the lines hold this form. -/
def Anchored (labels : List String) (lines : Lines) (s : String) : Prop :=
  Derived labels s → s ∈ keys lines

/-- Lines of the deck with the labels `labels`, and reversed forms of them, that hold all reversed
forms that they name. -/
structure Grounded (labels : List String) (lines : Lines) : Prop where
  labelled : ∀ s ∈ keys lines, s ∈ labels ∨ Derived labels s
  items : ∀ e ∈ lines, ∀ i ∈ e.2, Anchored labels lines i
  nodup : (keys lines).Nodup

variable {labels : List String} {lines lines' : Lines}

theorem derived_reversedName {s : String} (h : s ∈ labels ∨ Derived labels s) :
    Derived labels (reversedName s) := by
  rcases h with h | ⟨x, hx, n, rfl⟩
  · exact ⟨s, h, 0, rfl⟩
  · exact ⟨x, hx, n + 1, (Function.iterate_succ_apply' _ _ _).symm⟩

theorem Grounded.settled (h : Grounded labels lines) : Settled lines := by
  rintro e he i hi x hx rfl
  exact h.items e he _ hi (derived_reversedName (h.labelled x hx))

theorem Anchored.mono {s : String} (h : Anchored labels lines s)
    (hsub : keys lines ⊆ keys lines') : Anchored labels lines' s :=
  fun hderived => hsub (h hderived)

theorem grounded_nil (labels : List String) : Grounded labels [] where
  labelled := by simp [keys]
  items := by simp
  nodup := List.nodup_nil

/-- The lines after a reversal are grounded. -/
theorem Reversed.grounded {name : String} (h : Reversed lines name lines')
    (hground : Grounded labels lines) : Grounded labels lines' ∧ keys lines ⊆ keys lines' := by
  obtain ⟨added, rfl, hadded⟩ := h.added
  have hsub : keys lines ⊆ keys (lines ++ added) := by
    rw [keys_append]
    exact List.subset_append_left _ _
  refine ⟨⟨?_, ?_, h.nodup hground.nodup⟩, hsub⟩
  · intro s hs
    rw [keys_append, List.mem_append] at hs
    rcases hs with hs | hs
    · exact hground.labelled s hs
    · obtain ⟨v, hv⟩ := mem_keys.1 hs
      obtain ⟨x, items, hx, heq, -⟩ := hadded _ hv
      rw [(Prod.mk.inj heq).1]
      exact .inr (derived_reversedName (hground.labelled x (mem_keys_of_mem hx)))
  · intro e he i hi
    rcases List.mem_append.1 he with he | he
    · exact (hground.items e he i hi).mono hsub
    · obtain ⟨x, items, hx, rfl, -, hitems⟩ := hadded e he
      obtain ⟨j, hj, rfl⟩ := List.mem_map.1 hi
      rw [List.mem_reverse] at hj
      by_cases hmem : j ∈ keys lines
      · rw [reversedItem_of_mem hmem]
        exact fun _ => hitems j hj hmem
      · rw [reversedItem_of_notMem hmem]
        exact (hground.items _ hx j hj).mono hsub

/-- Names and lines come out of grounded lines: the names wait for no reversed form, and the lines
are grounded. -/
structure Arranged (labels : List String) (lines : Lines) (names : List String) (lines' : Lines) :
    Prop where
  grounded : Grounded labels lines'
  subset : keys lines ⊆ keys lines'
  names : ∀ s ∈ names, Anchored labels lines' s

theorem reverseOne_grounded (h : Grounded labels lines) {name : String}
    (hname : Anchored labels lines name) :
    ∃ name' lines', reverseOne lines name = .ok (name', lines') ∧
      Arranged labels lines [name'] lines' := by
  by_cases hmem : name ∈ keys lines
  · obtain ⟨lines', heq, hreversed⟩ := reverseOne_of_mem h.settled hmem
    obtain ⟨hground, hsub⟩ := hreversed.grounded h
    exact ⟨_, _, heq, hground, hsub, List.forall_mem_singleton.2 fun _ => hreversed.asked⟩
  · exact ⟨_, _, reverseOne_of_notMem hmem, h, List.Subset.refl _,
      List.forall_mem_singleton.2 hname⟩

theorem reverseAll_grounded {names : List String} : ∀ {lines : Lines}, Grounded labels lines →
    (∀ s ∈ names, Anchored labels lines s) → ∃ names' lines',
      reverseAll lines names = .ok (names', lines') ∧ Arranged labels lines names' lines' := by
  induction names with
  | nil => exact fun h _ => ⟨[], _, rfl, h, List.Subset.refl _, by simp⟩
  | cons name names ih =>
    intro lines h hnames
    rw [List.forall_mem_cons] at hnames
    obtain ⟨name', lines₁, hone, harranged₁⟩ := reverseOne_grounded h hnames.1
    obtain ⟨names', lines₂, hall, harranged₂⟩ := ih harranged₁.grounded
      fun s hs => (hnames.2 s hs).mono harranged₁.subset
    refine ⟨name' :: names', lines₂, bind_eq_ok.2 ⟨_, hone, bind_eq_ok.2 ⟨_, hall, rfl⟩⟩,
      harranged₂.grounded, List.Subset.trans harranged₁.subset harranged₂.subset, ?_⟩
    rw [List.forall_mem_cons]
    exact ⟨(harranged₁.names _ (List.mem_singleton_self _)).mono harranged₂.subset,
      harranged₂.names⟩

theorem spread_eq_ok {count : Nat} {reversed : Bool} {names names' : List String} :
    spread lines count reversed names = .ok (names', lines') ↔ ∃ once,
      (if reversed then reverseAll lines names.reverse else .ok (names, lines)) =
        .ok (once, lines') ∧ names' = (List.replicate count once).flatten := by
  cases reversed with
  | false =>
    constructor
    · intro h
      cases h
      exact ⟨names, rfl, rfl⟩
    · rintro ⟨once, h, rfl⟩
      cases h
      rfl
  | true =>
    constructor
    · intro h
      obtain ⟨⟨once, lines₁⟩, hall, h⟩ := bind_eq_ok.1 h
      cases h
      exact ⟨once, hall, rfl⟩
    · rintro ⟨once, hall, rfl⟩
      exact bind_eq_ok.2 ⟨_, hall, rfl⟩

theorem spread_grounded (h : Grounded labels lines) (count : Nat) (reversed : Bool)
    {names : List String} (hnames : ∀ s ∈ names, Anchored labels lines s) :
    ∃ names' lines', spread lines count reversed names = .ok (names', lines') ∧
      Arranged labels lines names' lines' := by
  obtain ⟨once, lines', honce, harranged⟩ : ∃ once lines',
      (if reversed then reverseAll lines names.reverse else .ok (names, lines)) =
        .ok (once, lines') ∧ Arranged labels lines once lines' := by
    cases reversed with
    | false => exact ⟨names, lines, rfl, h, List.Subset.refl _, hnames⟩
    | true => exact reverseAll_grounded h fun s hs => hnames s (List.mem_reverse.1 hs)
  refine ⟨_, lines', spread_eq_ok.2 ⟨once, honce, rfl⟩, harranged.grounded, harranged.subset, ?_⟩
  intro s hs
  obtain ⟨names', hnames', hs⟩ := List.mem_flatten.1 hs
  rw [List.eq_of_mem_replicate hnames'] at hs
  exact harranged.names s hs

mutual

theorem arrangeItem_grounded (lines : Lines) (h : Grounded labels lines) (i : LineItem)
    (hi : ∀ s ∈ i.names, Anchored labels lines s) :
    ∃ names lines', arrangeItem lines i = .ok (names, lines') ∧
      Arranged labels lines names lines' := by
  match i with
  | .name count reversed s => exact spread_grounded h count reversed hi
  | .group count reversed items =>
    obtain ⟨names₁, lines₁, hgroup, harranged₁⟩ := arrange_grounded lines h items hi
    obtain ⟨names₂, lines₂, hspread, harranged₂⟩ :=
      spread_grounded harranged₁.grounded count reversed harranged₁.names
    exact ⟨names₂, lines₂, bind_eq_ok.2 ⟨_, hgroup, hspread⟩, harranged₂.grounded,
      List.Subset.trans harranged₁.subset harranged₂.subset, harranged₂.names⟩

/-- Items whose names wait for no reversed form are arranged. -/
theorem arrange_grounded (lines : Lines) (h : Grounded labels lines) (items : List LineItem)
    (hitems : ∀ s ∈ LineItem.namesOf items, Anchored labels lines s) :
    ∃ names lines', arrange lines items = .ok (names, lines') ∧
      Arranged labels lines names lines' := by
  match items with
  | [] => exact ⟨[], lines, rfl, h, List.Subset.refl _, by simp⟩
  | i :: rest =>
    rw [LineItem.namesOf, List.forall_mem_append] at hitems
    obtain ⟨names₁, lines₁, hitem, harranged₁⟩ := arrangeItem_grounded lines h i hitems.1
    obtain ⟨names₂, lines₂, hrest, harranged₂⟩ := arrange_grounded lines₁ harranged₁.grounded rest
      fun s hs => (hitems.2 s hs).mono harranged₁.subset
    refine ⟨names₁ ++ names₂, lines₂, bind_eq_ok.2 ⟨_, hitem, bind_eq_ok.2 ⟨_, hrest, rfl⟩⟩,
      harranged₂.grounded, List.Subset.trans harranged₁.subset harranged₂.subset, ?_⟩
    rw [List.forall_mem_append]
    exact ⟨fun s hs => (harranged₁.names s hs).mono harranged₂.subset, harranged₂.names⟩

end

/-! ## Definitions of lines, one after the other -/

/-- Grounded lines stay so when a line of the deck is put among them. -/
theorem Arranged.put {names : List String} {name : String} (h : Arranged labels lines names lines')
    (hname : name ∈ labels) : Grounded labels (Table.put name names lines') := by
  have hsub : keys lines' ⊆ keys (Table.put name names lines') :=
    fun s hs => mem_keys_put.2 (.inl hs)
  refine ⟨fun s hs => ?_, fun e he i hi => ?_, nodup_keys_put h.grounded.nodup _ _⟩
  · rcases mem_keys_put.1 hs with hs | rfl
    · exact h.grounded.labelled s hs
    · exact .inl hname
  · rcases mem_of_mem_put he with rfl | he
    · exact (h.names i hi).mono hsub
    · exact (h.grounded.items e he i hi).mono hsub

/-- In a list of definitions, a name that can be that of a reversed form is the label of an earlier
definition. -/
def WaitsForNone (definitions : List (String × List LineItem)) : Prop :=
  ∀ before name items after, definitions = before ++ (name, items) :: after →
    ∀ s ∈ LineItem.namesOf items, Derived (keys definitions) s → s ∈ keys before

/-- Definitions of lines that do not name reversed forms wait for none. -/
theorem waitsForNone_of_plain {definitions : List (String × List LineItem)}
    (h : ∀ l ∈ definitions, ∀ s ∈ LineItem.namesOf l.2, ∀ x, s ≠ reversedName x) :
    WaitsForNone definitions := by
  rintro before name items after heq s hs ⟨x, -, n, rfl⟩
  refine absurd ?_ (h (name, items) (by simp [heq]) _ hs (reversedName^[n] x))
  exact Function.iterate_succ_apply' _ _ _

theorem ne_reversedName_of_suffix {s : String} (h : ¬ "_REV".toList <:+ s.toList) (x : String) :
    s ≠ reversedName x := by
  rintro rfl
  exact h ⟨x.toList, by rw [reversedName, String.toList_append]⟩

/-- Definitions of lines that wait for no reversed forms all take effect, and keep what each of them
keeps. -/
theorem foldlM_addLine {definitions : List (String × List LineItem)}
    (hwaits : WaitsForNone definitions) {I : Lines → Prop}
    (hI : ∀ before l after lines lines', definitions = before ++ l :: after →
      Grounded (keys definitions) lines → keys before ⊆ keys lines → I lines →
      addLine lines l = .ok lines' → I lines') (rest : List (String × List LineItem)) :
    ∀ (before : List (String × List LineItem)) (lines : Lines), definitions = before ++ rest →
      Grounded (keys definitions) lines → keys before ⊆ keys lines → I lines →
      ∃ lines', rest.foldlM addLine lines = .ok lines' ∧
        Grounded (keys definitions) lines' ∧ keys definitions ⊆ keys lines' ∧ I lines' := by
  induction rest with
  | nil =>
    intro before lines heq hground hsub hlines
    exact ⟨lines, rfl, hground, by rwa [heq, List.append_nil], hlines⟩
  | cons l rest ih =>
    intro before lines heq hground hsub hlines
    obtain ⟨names, lines₁, harrange, harranged⟩ := arrange_grounded lines hground l.2
      fun s hs hderived => hsub (hwaits before l.1 l.2 rest heq s hs hderived)
    have hadd : addLine lines l = .ok (put l.1 names lines₁) :=
      bind_eq_ok.2 ⟨_, harrange, rfl⟩
    have hlabel : l.1 ∈ keys definitions := mem_keys_of_mem (by simp [heq])
    have hsub' : keys (before ++ [l]) ⊆ keys (put l.1 names lines₁) := by
      rw [keys_append]
      refine List.append_subset.2 ⟨fun s hs => ?_, fun s hs => ?_⟩
      · exact mem_keys_put.2 (.inl (harranged.subset (hsub hs)))
      · exact mem_keys_put.2 (.inr (List.mem_singleton.1 hs))
    obtain ⟨lines', hrest, hlines'⟩ := ih (before ++ [l]) (put l.1 names lines₁)
      (by rw [heq, List.append_assoc]; rfl) (harranged.put hlabel) hsub'
      (hI before l rest lines _ heq hground hsub hlines hadd)
    refine ⟨lines', ?_, hlines'⟩
    rw [List.foldlM_cons]
    exact bind_eq_ok.2 ⟨_, hadd, hrest⟩

end Beamline.Deck

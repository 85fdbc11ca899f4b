import Beamline.Proofs.Deck.InStep
import Beamline.Proofs.Deck.Likeness
import Beamline.Proofs.Deck.Meaning

/-!
# Lines in another order

* `othersOf` : the clauses of a deck that define no lines;
* `ReversedFirst` : definitions in which what is reversed is defined before, with all that it names;
* `ruled_of_reversedFirst` : the lines of such definitions are in step with their reversed forms;
* `lookup_eq_of_inStep` : the lines do not depend on the order of the definitions;
* `Document.expand_eq_of_perm` : nor do the elements that they are expanded to;
* `Document.not_expand_eq_of_perm` : they do if a line is reversed before it is defined.
-/

namespace Beamline.Deck

open Table Relation

/-! ## Clauses that define no lines -/

/-- Whether a clause defines a line. -/
def definesLine (d : Dialect) (c : Clause) : Bool :=
  match spelled? d c with
  | some (.line _ _) => true
  | _ => false

/-- The clauses that define no lines. -/
def othersOf (d : Dialect) (cs : List Clause) : List Clause :=
  cs.filter fun c => !definesLine d c

/-- The texts of the clauses of a deck that define no lines. -/
def otherTexts (d : Dialect) (text : String) : List (List Char) :=
  (othersOf d (cut d text.toList).clauses).map (·.text)

namespace Session

variable {d : Dialect}

/-- The definition of a line changes neither the variables nor the elements. -/
theorem Alike.definesLine {s t : Session} (h : Alike False s t) {c : Clause} {next : Option Session}
    (hline : definesLine d c = true) (hs : s.clause d c = .ok next) :
    ∃ s', next = some s' ∧ Alike False s' t := by
  unfold Deck.definesLine at hline
  split at hline
  · rename_i name items hspelled
    rcases statement_of_clause hs with ⟨hnone, -⟩ | ⟨st, hst, hs⟩
    · rw [hspelled] at hnone
      cases hnone
    · rw [hspelled] at hst
      cases hst
      obtain ⟨s', hs', heq⟩ := bind_eq_ok.1 hs
      cases heq
      obtain ⟨r, -, hs'⟩ := bind_eq_ok.1 hs'
      cases hs'
      exact ⟨_, rfl, h.vars, h.elements, False.elim⟩
  · cases hline

/-- So the clauses that define no lines come to the same variables and elements. -/
theorem Alike.clauses_others {cs : List Clause} : ∀ {cs' : List Clause} {s t s' : Session},
    Alike False s t → cs'.map (·.text) = (othersOf d cs).map (·.text) →
    s.clauses d cs = .ok s' → ∃ t', t.clauses d cs' = .ok t' ∧ Alike False s' t' := by
  induction cs with
  | nil =>
    intro cs' s t s' h htexts hs
    rw [List.map_eq_nil_iff.1 htexts]
    cases hs
    exact ⟨t, rfl, h⟩
  | cons c cs ih =>
    intro cs' s t s' h htexts hs
    obtain ⟨next, hnext, hs⟩ := bind_eq_ok.1 hs
    by_cases hline : Deck.definesLine d c = true
    · rw [othersOf, List.filter_cons_of_neg (by simp [hline])] at htexts
      obtain ⟨s₁, rfl, halike⟩ := h.definesLine hline hnext
      exact ih halike htexts hs
    · rw [othersOf, List.filter_cons_of_pos (by simp [hline]), List.map_cons] at htexts
      obtain ⟨c', cs', rfl, htext, htexts⟩ := List.map_eq_cons_iff.1 htexts
      have hnone : ∀ name items, spelled? d c = some (.line name items) → False := by
        intro name items hspelled
        apply hline
        rw [Deck.definesLine, hspelled]
      obtain ⟨next', hnext', hrel⟩ := h.clause htext hnone hnext
      cases hrel with
      | none =>
        cases hs
        exact ⟨t, bind_eq_ok.2 ⟨none, hnext', rfl⟩, h⟩
      | some halike =>
        obtain ⟨t', ht', halike'⟩ := ih halike htexts hs
        exact ⟨t', bind_eq_ok.2 ⟨_, hnext', ht'⟩, halike'⟩

end Session

/-! ## Lines that are reversed when they are there -/

/-- The body of the line `a` names `b`. -/
def Names (definitions : List (String × List LineItem)) (a b : String) : Prop :=
  ∃ items, (a, items) ∈ definitions ∧ b ∈ LineItem.namesOf items

/-- Definitions in which a line that stands behind a minus sign is defined before, and so are all
lines that it leads to. -/
def ReversedFirst (definitions : List (String × List LineItem)) : Prop :=
  ∀ before name items after, definitions = before ++ (name, items) :: after →
    ∀ s, (true, s) ∈ LineItem.placesOf false items →
      ∀ m, ReflTransGen (Names definitions) s m → m ∈ keys definitions → m ∈ keys before

variable {all : Lines} {definitions definitions' : List (String × List LineItem)} {lines : Lines}

theorem ne_reversedName_of_mem (hplain : Plain definitions) {s : String} (hs : s ∈ keys definitions)
    (x : String) : s ≠ reversedName x := by
  obtain ⟨items, hitems⟩ := mem_keys.1 hs
  exact hplain _ hitems _ List.mem_cons_self x

mutual

theorem mem_value {turn : String → String} (i : LineItem) {s : String}
    (h : s ∈ i.value turn fun s => [s]) : s ∈ i.names ∨ ∃ x, s = turn x := by
  match i with
  | .name count reversed t =>
    obtain ⟨v, hv, hs⟩ := List.mem_flatten.1 h
    rw [List.eq_of_mem_replicate hv] at hs
    cases reversed with
    | false => exact .inl hs
    | true => exact .inr ⟨t, List.mem_singleton.1 hs⟩
  | .group count reversed items =>
    obtain ⟨v, hv, hs⟩ := List.mem_flatten.1 h
    rw [List.eq_of_mem_replicate hv] at hs
    cases reversed with
    | false => exact mem_valueOf items hs
    | true =>
      obtain ⟨x, -, hx⟩ := List.mem_map.1 hs
      exact .inr ⟨x, hx.symm⟩

/-- What items come to are names in them, and names that have been turned. -/
theorem mem_valueOf {turn : String → String} (items : List LineItem) {s : String}
    (h : s ∈ LineItem.valueOf turn (fun s => [s]) items) :
    s ∈ LineItem.namesOf items ∨ ∃ x, s = turn x := by
  match items with
  | [] => cases h
  | i :: rest =>
    rw [LineItem.namesOf, List.mem_append]
    rcases List.mem_append.1 h with h | h
    · exact (mem_value i h).imp_left .inl
    · exact (mem_valueOf rest h).imp_left .inr

end

/-- No label comes from the reversal of an item. -/
theorem ne_reversedItem (hplain : Plain definitions) (hall : keys definitions ⊆ keys all)
    {s : String} (hs : s ∈ keys definitions) (x : String) : s ≠ reversedItem all x := by
  by_cases hx : x ∈ keys all
  · rw [reversedItem_of_mem hx]
    exact ne_reversedName_of_mem hplain hs x
  · rw [reversedItem_of_notMem hx]
    rintro rfl
    exact hx (hall hs)

section Labels

variable {late trusted : String → Prop} {before after : List (String × List LineItem)}

/-- A label that is defined once has the line of its definition. -/
theorem InStep.lookup_of_mem (h : InStep all late trusted definitions lines)
    (hlabels : (keys definitions).Nodup) {l : String × List LineItem} (hl : l ∈ definitions) :
    lines.lookup l.1 = some (LineItem.valueOf (reversedItem all) (fun s => [s]) l.2) := by
  obtain ⟨before, after, heq⟩ := List.append_of_mem hl
  refine h.laid before l.1 l.2 after heq ?_
  rw [heq, keys_append] at hlabels
  exact (List.nodup_cons.1 hlabels.of_append_right).1

/-- A label that is an item of a line is named in the body of that line. -/
theorem InStep.names_of_holds (hplain : Plain definitions) (hlabels : (keys definitions).Nodup)
    (hall : keys definitions ⊆ keys all) (heq : definitions = before ++ after)
    (h : InStep all late (fun _ => True) before lines) {a b : String} (hab : Holds lines a b)
    (hb : b ∈ keys definitions) : Names definitions a b := by
  obtain ⟨items, hitems, hmem⟩ := hab
  have hlookup := Table.lookup_of_mem h.nodup hitems
  rcases h.labelled a (mem_keys_of_mem hitems) with ha | ⟨x, -, rfl⟩
  · obtain ⟨body, hbody⟩ := mem_keys.1 ha
    have hlabels' : (keys before).Nodup := by
      rw [heq, keys_append] at hlabels
      exact hlabels.of_append_left
    rw [h.lookup_of_mem hlabels' hbody] at hlookup
    cases hlookup
    refine ⟨body, heq ▸ List.mem_append_left _ hbody, (mem_valueOf body hmem).resolve_right ?_⟩
    rintro ⟨x, hx⟩
    exact ne_reversedItem hplain hall hb x hx
  · obtain ⟨its, -, hturned, -⟩ := h.mirrors x trivial (mem_keys_of_mem hitems)
    rw [hlookup] at hturned
    cases hturned
    obtain ⟨j, -, rfl⟩ := List.mem_map.1 hmem
    exact absurd rfl (ne_reversedItem hplain hall hb j)

end Labels

/-- Plain definitions of distinct labels are in step with the reversed forms if these are made when
all that they take has been defined. Other lines may be defined after they are named. -/
theorem ruled_of_reversedFirst (hplain : Plain definitions) (hlabels : (keys definitions).Nodup)
    (hfirst : ReversedFirst definitions) (hall : keys definitions ⊆ keys all)
    (hmem : ∀ s ∈ keys all, s ∈ keys definitions ∨ ∃ x, s = reversedName x) :
    Ruled all (· ∈ keys definitions) (fun _ => True) definitions where
  turned := fun _ _ => trivial
  unlabelled := fun s _ hs => ne_reversedName_of_mem hplain hs s rfl
  steady := by
    intro before name items after lines names lines' heq _ _ hlines' _ hthere
    have hbefore : ∀ s ∈ keys before, s ∈ keys definitions := by
      intro s hs
      rw [heq, keys_append]
      exact List.mem_append_left _ hs
    have hname : name ∈ keys definitions := by
      rw [heq, keys_append]
      exact List.mem_append_right _ List.mem_cons_self
    rcases hlines'.labelled _ hthere with hlabel | ⟨x, hx, heq'⟩
    · exact ne_reversedName_of_mem hplain (hbefore _ hlabel) name rfl
    · -- the line would be there before its definition
      obtain rfl := reversedName_inj.1 heq'
      rcases hlines'.labelled _ hx with hlabel | ⟨y, -, hy⟩
      · rw [heq, keys_append] at hlabels
        exact List.disjoint_of_nodup_append hlabels hlabel List.mem_cons_self
      · exact ne_reversedName_of_mem hplain hname y hy
  ripe := by
    intro before name items after lines heq hbefore hlines p hp
    have hnames : p.2 ∈ LineItem.namesOf items := by
      rw [← names_placesOf false items]
      exact List.mem_map_of_mem hp
    have hl : (name, items) ∈ definitions := by simp [heq]
    have hlabel : ∀ s ∈ LineItem.namesOf items, s ∈ keys all → s ∈ keys definitions := by
      intro s hs hs'
      refine (hmem s hs').resolve_right ?_
      rintro ⟨x, hx⟩
      exact hplain _ hl s (List.mem_cons_of_mem _ hs) x hx
    refine ⟨fun hs => .inr (hlabel _ hnames hs), fun hunder => ?_⟩
    have hplace : (true, p.2) ∈ LineItem.placesOf false items := by
      rw [← hunder]
      exact hp
    have hearly : ∀ m, ReflTransGen (Names definitions) p.2 m → m ∈ keys definitions →
        m ∈ keys lines :=
      fun m hm hm' => labels_subset hbefore
        (hfirst before name items after heq p.2 hplace m hm hm')
    -- labels are reached in the lines only if they are reached in the bodies
    have hreach : ∀ m, ReflTransGen (Holds lines) p.2 m → (m ∈ keys definitions →
        ReflTransGen (Names definitions) p.2 m) ∧ (m ∈ keys all → m ∈ keys lines) := by
      intro m hm
      induction hm with
      | refl => exact ⟨fun _ => .refl, fun hs => hearly _ .refl (hlabel _ hnames hs)⟩
      | @tail b m _ hbm ih =>
        have hstep : m ∈ keys definitions → ReflTransGen (Names definitions) p.2 m := by
          intro hm
          have hnames := hlines.names_of_holds hplain hlabels hall heq hbm hm
          obtain ⟨body, hbody, -⟩ := id hnames
          exact (ih.1 (mem_keys_of_mem hbody)).tail hnames
        refine ⟨hstep, fun hm => ?_⟩
        obtain ⟨its, hits, hmem⟩ := hbm
        exact (hlines.closed _ hits m hmem hm).elim id fun hlate => hearly m (hstep hlate) hlate
    exact fun m hm hm' => ⟨trivial, (hreach m hm).2 hm'⟩

/-! ## Two orders -/

section Orders

variable {late late' : String → Prop} {lines' : Lines}

/-- Whatever the order of the definitions, a line holds the same items. -/
theorem lookup_eq_of_inStep (hplain : Plain definitions) (hlabels : (keys definitions).Nodup)
    (hperm : definitions.Perm definitions')
    (h : InStep all late (fun _ => True) definitions lines)
    (h' : InStep all late' (fun _ => True) definitions' lines') (s : String)
    (hs : s ∈ keys lines) (hs' : s ∈ keys lines') : lines.lookup s = lines'.lookup s := by
  by_cases hlabel : s ∈ keys definitions
  · obtain ⟨body, hbody⟩ := mem_keys.1 hlabel
    have hlabels' : (keys definitions').Nodup := (hperm.map Prod.fst).nodup_iff.1 hlabels
    rw [h.lookup_of_mem hlabels hbody, h'.lookup_of_mem hlabels' (hperm.mem_iff.1 hbody)]
  · have hlabel' : s ∉ keys definitions' := fun hmem => hlabel ((hperm.map Prod.fst).mem_iff.2 hmem)
    obtain ⟨x, hx, hname⟩ := (h.labelled s hs).resolve_left hlabel
    obtain ⟨x', hx', hname'⟩ := (h'.labelled s hs').resolve_left hlabel'
    obtain rfl : x' = x := reversedName_inj.1 (hname'.symm.trans hname)
    have hless : x'.length < s.length := by
      rw [hname, reversedName, String.length_append]
      exact Nat.lt_add_of_pos_right (by decide)
    -- the reversed forms of a line that is the same in both
    have hitems := lookup_eq_of_inStep hplain hlabels hperm h h' x' hx hx'
    obtain ⟨items, hlookup, hturned, -⟩ := h.mirrors x' trivial (hname ▸ hs)
    obtain ⟨items', hlookup', hturned', -⟩ := h'.mirrors x' trivial (hname' ▸ hs')
    rw [hlookup, hlookup'] at hitems
    cases hitems
    rw [hname, hturned, hturned']
termination_by s.length

end Orders

end Beamline.Deck

namespace Beamline.Document

open Deck Table Relation

variable {d₁ d₂ : Document} {all lines₁ lines₂ : Lines}
  {definitions₁ definitions₂ : List (String × List LineItem)} {dialect : Dialect}
  {text₁ text₂ : String} {notes₁ notes₂ : List Note}

/-- Names of lines of both documents stand for the same elements in both. -/
theorem Flattens.transfer (helements : d₁.elements = d₂.elements)
    (hlattices₁ : d₁.lattices = lines₁.map fun l => ⟨l.1, l.2.map .name⟩)
    (hlattices₂ : d₂.lattices = lines₂.map fun l => ⟨l.1, l.2.map .name⟩)
    (hlookup : ∀ s ∈ keys lines₁, s ∈ keys lines₂ → lines₁.lookup s = lines₂.lookup s)
    (hclosed : ∀ e ∈ lines₂, ∀ i ∈ e.2, i ∈ keys lines₁ → i ∈ keys lines₂)
    (hnodup : (keys lines₁).Nodup) {items : List Item} {es : List Element}
    (h : d₁.Flattens items es) : ∀ names : List String, items = names.map .name →
      (∀ s ∈ names, s ∈ keys lines₁ → s ∈ keys lines₂) → d₂.Flattens items es := by
  induction h with
  | nil => exact fun _ _ _ => .nil
  | @element e rest es he _ ih =>
    intro names heq hnames
    obtain ⟨s, names, rfl, hs, hrest⟩ := List.map_eq_cons_iff.1 heq.symm
    rw [List.forall_mem_cons] at hnames
    exact .element (helements ▸ he) (ih names hrest.symm hnames.2)
  | @lattice l rest inner es hl _ _ ihinner ih =>
    intro names heq hnames
    obtain ⟨s, names, rfl, hs, hrest⟩ := List.map_eq_cons_iff.1 heq.symm
    cases hs
    rw [List.forall_mem_cons] at hnames
    rw [hlattices₁] at hl
    obtain ⟨e, he, rfl⟩ := List.mem_map.1 hl
    have hmem := hnames.1 (mem_keys_of_mem he)
    have he' : e ∈ lines₂ := by
      apply mem_of_lookup
      rw [← hlookup e.1 (mem_keys_of_mem he) hmem]
      exact lookup_of_mem hnodup he
    have hl' : (⟨e.1, e.2.map .name⟩ : Lattice) ∈ d₂.lattices := by
      rw [hlattices₂]
      exact List.mem_map.2 ⟨e, he', rfl⟩
    exact .lattice hl' (ihinner e.2 rfl (hclosed e he')) (ih names hrest.symm hnames.2)
  | group =>
    intro names heq _
    obtain ⟨s, names, rfl, hs, -⟩ := List.map_eq_cons_iff.1 heq.symm
    cases hs

/-- Decks whose clauses are the same but for those that define lines have the same elements. -/
theorem elements_eq_of_others (h₁ : readDeck dialect text₁ = (.ok d₁, notes₁))
    (h₂ : readDeck dialect text₂ = (.ok d₂, notes₂))
    (hothers : otherTexts dialect text₁ = otherTexts dialect text₂) :
    d₁.elements = d₂.elements := by
  obtain ⟨s₁, es₁, hs₁, hes₁, hbuild₁⟩ := exists_elementList_of_readDeck h₁
  obtain ⟨s₂, es₂, hs₂, hes₂, hbuild₂⟩ := exists_elementList_of_readDeck h₂
  have hstart : ∀ title, Session.Alike False { title } {} := fun _ => ⟨rfl, rfl, False.elim⟩
  obtain ⟨t₁, ht₁, halike₁⟩ := (hstart _).clauses_others rfl hs₁
  obtain ⟨t₂, ht₂, halike₂⟩ := (hstart _).clauses_others hothers hs₂
  rw [ht₁] at ht₂
  cases ht₂
  have hes : es₁ = es₂ := by
    rw [halike₁.elementList, ← halike₂.elementList, hes₂] at hes₁
    exact (Except.ok.inj hes₁).symm
  obtain ⟨-, -, rfl⟩ := Builder.build_eq_ok_iff.1 hbuild₁
  obtain ⟨-, -, rfl⟩ := Builder.build_eq_ok_iff.1 hbuild₂
  rw [hes, elements_builder]

/-- Two decks with the same lines in different orders, and the same clauses besides, are read as
documents in which every label is expanded to the same elements, if every label is defined once and
no label and no name in a body is that of a reversed form. This takes that in both of them a line
that is reversed is defined before, with all the lines that it leads to; lines that are not may be
named before they are defined. -/
theorem expand_eq_of_perm (h₁ : readDeck dialect text₁ = (.ok d₁, notes₁))
    (h₂ : readDeck dialect text₂ = (.ok d₂, notes₂))
    (hperm : (lineDefinitions dialect text₁).Perm (lineDefinitions dialect text₂))
    (hothers : otherTexts dialect text₁ = otherTexts dialect text₂)
    (hlabels : (keys (lineDefinitions dialect text₁)).Nodup)
    (hplain : Plain (lineDefinitions dialect text₁))
    (hfirst₁ : ReversedFirst (lineDefinitions dialect text₁))
    (hfirst₂ : ReversedFirst (lineDefinitions dialect text₂)) :
    ∀ label ∈ keys (lineDefinitions dialect text₁),
      ∃ es, d₁.expand label = .ok es ∧ d₂.expand label = .ok es := by
  obtain ⟨lines₁, hlines₁, hlattices₁⟩ := exists_lines_of_readDeck h₁
  obtain ⟨lines₂, hlines₂, hlattices₂⟩ := exists_lines_of_readDeck h₂
  have hkeys := hperm.map Prod.fst
  have hlabels₂ : (keys (lineDefinitions dialect text₂)).Nodup := hkeys.nodup_iff.1 hlabels
  have hplain₂ : Plain (lineDefinitions dialect text₂) :=
    fun l hl => hplain l (hperm.mem_iff.2 hl)
  -- the names of the lines of both decks
  have hsub₁ : keys lines₁ ⊆ keys (lines₁ ++ lines₂) := by
    rw [keys_append]
    exact List.subset_append_left _ _
  have hsub₂ : keys lines₂ ⊆ keys (lines₁ ++ lines₂) := by
    rw [keys_append]
    exact List.subset_append_right _ _
  have hall : ∀ s ∈ keys (lines₁ ++ lines₂),
      s ∈ keys (lineDefinitions dialect text₁) ∨ ∃ x, s = reversedName x := by
    intro s hs
    rw [keys_append] at hs
    rcases List.mem_append.1 hs with hs | hs
    · exact (mem_keys_of_foldlM hlines₁ s hs).resolve_left List.not_mem_nil
    · exact ((mem_keys_of_foldlM hlines₂ s hs).resolve_left List.not_mem_nil).imp_left hkeys.mem_iff.2
  have hstep₁ := (ruled_of_reversedFirst hplain hlabels hfirst₁
    (List.Subset.trans (labels_subset hlines₁) hsub₁) hall).inStep _ (List.append_nil _).symm
      hlines₁ hsub₁
  have hstep₂ := (ruled_of_reversedFirst hplain₂ hlabels₂ hfirst₂
    (List.Subset.trans (labels_subset hlines₂) hsub₂)
    (fun s hs => (hall s hs).imp_left hkeys.mem_iff.1)).inStep _ (List.append_nil _).symm
      hlines₂ hsub₂
  replace hlattices₁ := hlattices₁ hstep₁.nodup
  replace hlattices₂ := hlattices₂ hstep₂.nodup
  have hlawful₁ := lawful_of_obtained (.read h₁)
  have hlawful₂ := lawful_of_obtained (.read h₂)
  have hlookup := lookup_eq_of_inStep hplain hlabels hperm hstep₁ hstep₂
  have hclosed : ∀ e ∈ lines₂, ∀ i ∈ e.2, i ∈ keys lines₁ → i ∈ keys lines₂ :=
    fun e he i hi hmem => (hstep₂.closed e he i hi (hsub₁ hmem)).elim id fun hlate =>
      labels_subset hlines₂ hlate
  intro label hlabel
  obtain ⟨names, hnames⟩ := exists_lookup (labels_subset hlines₁ hlabel)
  have hnames₂ : lines₂.lookup label = some names := by
    rw [← hlookup label (labels_subset hlines₁ hlabel)
      (labels_subset hlines₂ (hkeys.mem_iff.1 hlabel)), hnames]
  have hl₁ := mem_lattices_of_lookup hlattices₁ hnames
  have hl₂ := mem_lattices_of_lookup hlattices₂ hnames₂
  obtain ⟨es, hes⟩ := hlawful₁.exists_flattens hl₁
  have hes₂ := hes.transfer (elements_eq_of_others h₁ h₂ hothers) hlattices₁ hlattices₂ hlookup
    hclosed hstep₁.nodup names rfl (hclosed _ (mem_of_lookup hnames₂))
  exact ⟨es, hlawful₁.expand_eq hl₁ hes, hlawful₂.expand_eq hl₂ hes₂⟩

/-- The line `B` of this deck names one that is defined after it. -/
def outwardDeck : String :=
  "Q: MARK\nD: MARK\nB: LINE=(Q, C)\nC: LINE=(D, Q)\nA: LINE=(-C, B)\nUSE, A\n"

/-- The same lines in another order. -/
def inwardDeck : String :=
  "Q: MARK\nD: MARK\nC: LINE=(D, Q)\nA: LINE=(-C, B)\nB: LINE=(Q, C)\nUSE, A\n"

/-- The definitions of lines in the first deck. -/
def outwardDefinitions : List (String × List LineItem) :=
  [("B", [.name 1 false "Q", .name 1 false "C"]), ("C", [.name 1 false "D", .name 1 false "Q"]),
    ("A", [.name 1 true "C", .name 1 false "B"])]

/-- The definitions of lines in the second deck. -/
def inwardDefinitions : List (String × List LineItem) :=
  [("C", [.name 1 false "D", .name 1 false "Q"]), ("A", [.name 1 true "C", .name 1 false "B"]),
    ("B", [.name 1 false "Q", .name 1 false "C"])]

theorem lineDefinitions_outwardDeck : lineDefinitions .elegant outwardDeck = outwardDefinitions := by
  cbv

theorem lineDefinitions_inwardDeck : lineDefinitions .elegant inwardDeck = inwardDefinitions := by
  cbv

/-- What is read from the first deck. -/
def outwardDocument : Document where
  version := .current
  title := none
  info := none
  root := some "A"
  elements := [⟨"Q", none, .marker⟩, ⟨"D", none, .marker⟩]
  lattices := [⟨"B", ["Q", "C"].map .name⟩, ⟨"C", ["D", "Q"].map .name⟩,
    ⟨"C_REV", ["Q", "D"].map .name⟩, ⟨"A", ["C_REV", "B"].map .name⟩]
  extras := []

/-- What is read from the second deck. -/
def inwardDocument : Document :=
  { outwardDocument with
    lattices := [⟨"C", ["D", "Q"].map .name⟩, ⟨"C_REV", ["Q", "D"].map .name⟩,
      ⟨"A", ["C_REV", "B"].map .name⟩, ⟨"B", ["Q", "C"].map .name⟩] }

theorem readDeck_outwardDeck : readDeck .elegant outwardDeck = (.ok outwardDocument, []) := by
  unfold readDeck
  -- the values of the constants are not needed
  generalize constants = vars
  cbv

theorem readDeck_inwardDeck : readDeck .elegant inwardDeck = (.ok inwardDocument, []) := by
  unfold readDeck
  generalize constants = vars
  cbv

theorem perm_outwardDefinitions : outwardDefinitions.Perm inwardDefinitions :=
  (List.Perm.swap _ _ _).trans ((List.Perm.swap _ _ _).cons _)

/-- What is reversed in these decks leads to one line only. -/
theorem reach_inwardDefinitions {definitions : List (String × List LineItem)}
    (hperm : definitions.Perm inwardDefinitions) {m : String}
    (h : ReflTransGen (Names definitions) "C" m) : m ∈ ["C", "D", "Q"] := by
  have hclosed : ∀ a ∈ ["C", "D", "Q"], ∀ l ∈ inwardDefinitions, l.1 = a →
      ∀ b ∈ LineItem.namesOf l.2, b ∈ ["C", "D", "Q"] := by
    decide
  induction h with
  | refl => decide
  | tail _ hstep ih =>
    obtain ⟨items, hitems, hm⟩ := hstep
    exact hclosed _ ih _ (hperm.mem_iff.1 hitems) rfl _ hm

theorem reversedFirst_inwardDefinitions : ReversedFirst inwardDefinitions := by
  intro before name items after heq s hs m hm
  rcases before with _ | ⟨_, _ | ⟨_, _ | ⟨_, before⟩⟩⟩
  · cases heq
    simp [LineItem.placesOf, LineItem.places] at hs
  · cases heq
    obtain rfl : s = "C" := by simpa [LineItem.placesOf, LineItem.places] using hs
    have hreach := reach_inwardDefinitions (.refl _) hm
    clear hm
    revert m
    decide
  · cases heq
    simp [LineItem.placesOf, LineItem.places] at hs
  · simp [inwardDefinitions] at heq

theorem reversedFirst_outwardDefinitions : ReversedFirst outwardDefinitions := by
  intro before name items after heq s hs m hm
  rcases before with _ | ⟨_, _ | ⟨_, _ | ⟨_, before⟩⟩⟩
  · cases heq
    simp [LineItem.placesOf, LineItem.places] at hs
  · cases heq
    simp [LineItem.placesOf, LineItem.places] at hs
  · cases heq
    obtain rfl : s = "C" := by simpa [LineItem.placesOf, LineItem.places] using hs
    have hreach := reach_inwardDefinitions perm_outwardDefinitions hm
    clear hm
    revert m
    decide
  · simp [outwardDefinitions] at heq

theorem plain_outwardDefinitions : Plain outwardDefinitions := by
  have hsuffix : ∀ l ∈ outwardDefinitions, ∀ s ∈ l.1 :: LineItem.namesOf l.2,
      ¬ "_REV".toList <:+ s.toList := by
    decide
  exact fun l hl s hs => ne_reversedName_of_suffix (hsuffix l hl s hs)

/-- `expand_eq_of_perm` for these decks: the line `B` names a later one in the first, and is named by
an earlier one in the second. -/
theorem expand_outwardDeck : ∃ es, outwardDocument.expand "A" = .ok es ∧
    inwardDocument.expand "A" = .ok es := by
  have hdefinitions := lineDefinitions_outwardDeck
  have hdefinitions' := lineDefinitions_inwardDeck
  refine expand_eq_of_perm readDeck_outwardDeck readDeck_inwardDeck ?_ ?_ ?_ ?_ ?_ ?_ "A" ?_
  · rw [hdefinitions, hdefinitions']
    exact perm_outwardDefinitions
  · cbv
  · rw [hdefinitions]
    decide
  · rw [hdefinitions]
    exact plain_outwardDefinitions
  · rw [hdefinitions]
    exact reversedFirst_outwardDefinitions
  · rw [hdefinitions']
    exact reversedFirst_inwardDefinitions
  · rw [hdefinitions]
    decide

/-! ## Lines that are reversed before they are defined -/

/-- A deck in which a line is reversed before it is defined. -/
def hastyDeck : String :=
  "Q: MARK\nD: MARK\nB: LINE=(-A)\nA: LINE=(Q, D)\nUSE, B\n"

/-- The same lines in the other order. -/
def patientDeck : String :=
  "Q: MARK\nD: MARK\nA: LINE=(Q, D)\nB: LINE=(-A)\nUSE, B\n"

theorem lineDefinitions_hastyDeck : lineDefinitions .elegant hastyDeck =
    [("B", [.name 1 true "A"]), ("A", [.name 1 false "Q", .name 1 false "D"])] := by
  cbv

theorem lineDefinitions_patientDeck : lineDefinitions .elegant patientDeck =
    [("A", [.name 1 false "Q", .name 1 false "D"]), ("B", [.name 1 true "A"])] := by
  cbv

/-- What is read from the first deck. -/
def hastyDocument : Document where
  version := .current
  title := none
  info := none
  root := some "B"
  elements := [⟨"Q", none, .marker⟩, ⟨"D", none, .marker⟩]
  lattices := [⟨"B", ["A"].map .name⟩, ⟨"A", ["Q", "D"].map .name⟩]
  extras := []

/-- What is read from the second deck. -/
def patientDocument : Document :=
  { hastyDocument with
    lattices := [⟨"A", ["Q", "D"].map .name⟩, ⟨"A_REV", ["D", "Q"].map .name⟩,
      ⟨"B", ["A_REV"].map .name⟩] }

theorem readDeck_hastyDeck : readDeck .elegant hastyDeck = (.ok hastyDocument, []) := by
  unfold readDeck
  generalize constants = vars
  cbv

theorem readDeck_patientDeck : readDeck .elegant patientDeck = (.ok patientDocument, []) := by
  unfold readDeck
  generalize constants = vars
  cbv

/-- It is not true of all decks with the same lines in different orders: a line that is not there yet
is not reversed. -/
theorem not_expand_eq_of_perm : ¬ ∀ (d₁ d₂ : Document) (dialect : Dialect) (text₁ text₂ : String)
    (notes₁ notes₂ : List Note), readDeck dialect text₁ = (.ok d₁, notes₁) →
      readDeck dialect text₂ = (.ok d₂, notes₂) →
      (lineDefinitions dialect text₁).Perm (lineDefinitions dialect text₂) →
      otherTexts dialect text₁ = otherTexts dialect text₂ →
      (keys (lineDefinitions dialect text₁)).Nodup → Plain (lineDefinitions dialect text₁) →
      ∀ label ∈ keys (lineDefinitions dialect text₁),
        ∃ es, d₁.expand label = .ok es ∧ d₂.expand label = .ok es := by
  intro h
  have hplain : Plain (lineDefinitions .elegant hastyDeck) := by
    have hsuffix : ∀ l ∈ lineDefinitions .elegant hastyDeck, ∀ s ∈ l.1 :: LineItem.namesOf l.2,
        ¬ "_REV".toList <:+ s.toList := by
      rw [lineDefinitions_hastyDeck]
      decide
    exact fun l hl s hs => ne_reversedName_of_suffix (hsuffix l hl s hs)
  obtain ⟨es, hes, hes'⟩ := h _ _ _ _ _ _ _ readDeck_hastyDeck readDeck_patientDeck
    (by
      rw [lineDefinitions_hastyDeck, lineDefinitions_patientDeck]
      exact .swap _ _ _)
    (by cbv)
    (by
      rw [lineDefinitions_hastyDeck]
      decide)
    hplain "B"
    (by
      rw [lineDefinitions_hastyDeck]
      decide)
  have hleft : (hastyDocument.expand "B").map (·.map Element.name) = .ok ["Q", "D"] := by
    cbv
  have hright : (patientDocument.expand "B").map (·.map Element.name) = .ok ["D", "Q"] := by
    cbv
  rw [hes] at hleft
  rw [hes', hleft] at hright
  exact absurd hright (by simp)

end Beamline.Document

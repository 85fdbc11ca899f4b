import Beamline.Proofs.Deck.Attributes

/-!
# Elements that start from others

An element whose keyword is the name of another one starts from the parameters of that one. If it
has the keyword of the other instead, and the attributes of the other in front of its own, the deck
describes the same document.

* `Dialect.Reserved` : the words that are keywords whatever has been defined;
* `Session.Stands` : an element stands as it was defined by attributes;
* `Session.Stands.shape_eq` : what starts from it is defined as by the attributes of both;
* `Inheritance` : two decks, the second of which has the attributes written out;
* `Document.readDeck_writtenOut` : they describe the same document if the order of a multipole is
  kept;
* `Document.not_readDeck_writtenOut` : they need not if the multipole is given another strength.
-/

namespace Beamline

/-- A word that is a keyword in every deck. -/
def Dialect.Reserved (d : Dialect) (word : String) : Prop :=
  (d.kind? word).isSome ∨ word = "SEQUENCE"

namespace Deck

open Table

theorem kind?_sequence (d : Dialect) : d.kind? "SEQUENCE" = none := by
  cases d <;> rfl

theorem spelled?_congr (d : Dialect) {c c' : Clause} (h : c'.text = c.text) :
    spelled? d c' = spelled? d c := by
  unfold spelled? Session.calculation?
  rw [h]

namespace Session

variable {d : Dialect} {s t : Session} {c : Clause} {name keyword : String} {k : Kind}
  {as bs : List (String × Literal)}

/-- The variables have values with which the attributes `as` define the element `name` as what it
is, of the kind `k`. -/
def Stands (d : Dialect) (s : Session) (name : String) (k : Kind) (as : List (String × Literal)) :
    Prop :=
  ∃ e, s.elements.lookup name = some e ∧
    outline? d s.vars (some (k, [])) as = some ⟨e.kind, e.fields, s.vars⟩

theorem shape_of_kind (hkind : d.kind? keyword = some k) :
    s.shape? d keyword as = outline? d s.vars (some (k, [])) as := by
  have hkeyword : keyword ≠ "SEQUENCE" := by
    rintro rfl
    rw [kind?_sequence] at hkind
    cases hkind
  rw [shape?, if_neg hkeyword, start?, hkind]

/-- An element stands once it has been defined. -/
theorem stands_of_clause (h : s.clause d c = .ok (some t))
    (hc : spelled? d c = some (.element name keyword as)) (hkind : d.kind? keyword = some k)
    (hquiet : c.Quiet d) : t.Stands d name k as := by
  have hvars : t.vars = s.vars := vars_of_clause h hquiet
  obtain ⟨t', ht, h⟩ := bind_eq_ok.1 ((clause_of_spelled hc).1 h).2
  cases h
  obtain ⟨e, notes, he, rfl⟩ := shape_of_defineElement ht
  rw [shape_of_kind hkind] at he
  refine ⟨⟨c.line, e.kind, e.fields⟩, ?_, ?_⟩
  · exact (lookup_put name _ s.elements name).trans (if_pos rfl)
  · dsimp only at hvars ⊢
    rw [hvars, he, ← hvars]

namespace Stands

/-- It stands as long as nothing is stored and it is not defined anew. -/
theorem clause (h : s.Stands d name k as) (hs : s.clause d c = .ok (some t)) (hquiet : c.Quiet d)
    (hname : ∀ keyword bs, spelled? d c ≠ some (.element name keyword bs)) :
    t.Stands d name k as := by
  obtain ⟨e, he, houtline⟩ := h
  refine ⟨e, ?_, ?_⟩
  · rw [lookup_of_clause hs hname]
    exact he
  · rw [vars_of_clause hs hquiet]
    exact houtline

/-- What starts from it is defined as by the attributes of both. -/
theorem shape_eq (h : s.Stands d name k as) (hname : ¬ d.Reserved name)
    (hkind : d.kind? keyword = some k) (has : ∀ a ∈ as, a.2.Quiet d)
    (horder : KeepsOrder d k as bs) : s.shape? d name bs = s.shape? d keyword (as ++ bs) := by
  obtain ⟨e, he, houtline⟩ := h
  rw [Dialect.Reserved, not_or, Option.not_isSome_iff_eq_none] at hname
  have hk : e.kind = k := by
    obtain ⟨sk, -, hsk⟩ := Option.map_eq_some_iff.1 houtline
    exact (congrArg Shape.kind hsk).symm
  rw [shape_of_kind hkind, shape?, if_neg hname.2, start?, hname.1, he]
  subst hk
  exact outline_append horder has houtline

/-- Alike sessions do the same with an element that starts from it and with one that has the
attributes of both. -/
theorem clause_rel {x x' : Clause} {heir : String} (h : s.Stands d name k as) (hst : Alike True s t)
    (hname : ¬ d.Reserved name) (hkind : d.kind? keyword = some k)
    (has : ∀ a ∈ as, a.2.Quiet d) (horder : KeepsOrder d k as bs)
    (hx : spelled? d x = some (.element heir name bs))
    (hx' : spelled? d x' = some (.element heir keyword (as ++ bs)))
    (hdeep : bracketDepth x'.text ≤ maxBracketDepth ↔ bracketDepth x.text ≤ maxBracketDepth) :
    Option.Rel (Option.Rel (Alike True)) (s.clause d x).toOption (t.clause d x').toOption := by
  have hshape : s.shape? d name bs = t.shape? d keyword (as ++ bs) :=
    (h.shape_eq hname hkind has horder).trans (hst.shape_eq keyword (as ++ bs))
  refine rel_toOption (fun next hnext => ?_) fun next' hnext' => ?_
  · obtain ⟨hle, hs⟩ := (clause_of_spelled hx).1 hnext
    obtain ⟨s', hs', hs⟩ := bind_eq_ok.1 hs
    cases hs
    obtain ⟨t', ht', halike⟩ := hst.defineElement_of_shape x'.line hshape hs'
    exact ⟨some t', (clause_of_spelled hx').2 ⟨hdeep.2 hle, bind_eq_ok.2 ⟨t', ht', rfl⟩⟩,
      .some halike⟩
  · obtain ⟨hle, ht⟩ := (clause_of_spelled hx').1 hnext'
    obtain ⟨t', ht', ht⟩ := bind_eq_ok.1 ht
    cases ht
    obtain ⟨s', hs', -⟩ := hst.symm.defineElement_of_shape x.line hshape.symm ht'
    exact ⟨some s', (clause_of_spelled hx).2 ⟨hdeep.1 hle, bind_eq_ok.2 ⟨s', hs', rfl⟩⟩⟩

end Stands

end Session

/-! ## Decks -/

/-- In the deck `text` an element starts from another one. In the deck `text'` it has the attributes
of that one written out instead, and its own behind them. -/
structure Inheritance (d : Dialect) (text text' : String) where
  before : List Clause
  /-- The definition of the element that the other one starts from. -/
  parent : Clause
  between : List Clause
  /-- The definition of the other one. -/
  heir : Clause
  /-- The definition that the second deck has in its place. -/
  written : Clause
  after : List Clause
  name : String
  keyword : String
  kind : Kind
  attributes : List (String × Literal)
  heirName : String
  own : List (String × Literal)
  clauses : (cut d text.toList).clauses = before ++ parent :: (between ++ heir :: after)
  texts : (cut d text'.toList).clauses.map Clause.text =
    (before ++ parent :: (between ++ written :: after)).map Clause.text
  title : (cut d text'.toList).title = (cut d text.toList).title
  spelled_parent : spelled? d parent = some (.element name keyword attributes)
  spelled_heir : spelled? d heir = some (.element heirName name own)
  spelled_written : spelled? d written = some (.element heirName keyword (attributes ++ own))
  kind_eq : d.kind? keyword = some kind
  not_reserved : ¬ d.Reserved name
  /-- The brackets are written out as they were. -/
  depth : bracketDepth written.text = max (bracketDepth parent.text) (bracketDepth heir.text)
  /-- Nothing is stored from the definition of the parent on. -/
  quiet : ∀ c ∈ parent :: between, c.Quiet d
  /-- The parent is not defined anew. -/
  kept : ∀ c ∈ between, ∀ word others, spelled? d c ≠ some (.element name word others)

end Deck

open Deck

namespace Document

/-- The deck in which the attributes are written out describes the same document if the order of a
multipole is kept, and it is refused if the other one is. -/
theorem readDeck_writtenOut {d : Dialect} {text text' : String} (h : Inheritance d text text')
    (horder : KeepsOrder d h.kind h.attributes h.own) :
    (readDeck d text').1.toOption = (readDeck d text).1.toOption := by
  apply readDeck_eq_of_agree
  rw [h.clauses, h.title]
  -- nothing needs to be known of the sessions before the parent
  refine Session.Agree.append (P := fun _ => True) (fun _ _ _ _ _ _ => trivial) ?_ trivial
    (.refl True _) h.texts
  intro s t ds _ halike hds
  obtain ⟨parent, ds, rfl, hparent, hds⟩ := List.map_eq_cons_iff.1 hds
  refine .cons halike hparent fun s₁ t₁ hs₁ halike => ?_
  have hstands := Session.stands_of_clause hs₁ h.spelled_parent h.kind_eq
    (h.quiet h.parent List.mem_cons_self)
  have hdeep : bracketDepth h.written.text ≤ maxBracketDepth ↔
      bracketDepth h.heir.text ≤ maxBracketDepth := by
    rw [h.depth, Nat.max_le]
    exact and_iff_right ((Session.clause_of_spelled h.spelled_parent).1 hs₁).1
  -- from there on the parent stands, up to the heir
  refine Session.Agree.append (P := fun u => u.Stands d h.name h.kind h.attributes) ?_ ?_ hstands
    halike hds
  · intro c hc u v hu huv
    exact hu.clause huv (h.quiet c (List.mem_cons_of_mem h.parent hc)) (h.kept c hc)
  · intro s t ds hstands halike hds
    obtain ⟨written, ds, rfl, hwritten, hds⟩ := List.map_eq_cons_iff.1 hds
    have hspelled := (spelled?_congr d hwritten).trans h.spelled_written
    rw [← hwritten] at hdeep
    exact .step halike (hstands.clause_rel halike h.not_reserved h.kind_eq
      ((h.quiet h.parent List.mem_cons_self).element _ _ _ h.spelled_parent) horder h.spelled_heir
      hspelled hdeep) fun s' t' _ halike => Session.agree_of_texts halike hds

/-! ## Multipoles with an order -/

/-- A number as it is read in a deck. -/
def readNumber (digits : List Char) : Expr :=
  .number (Decimal.ofParts digits [] 0).toFloat

/-- The definition of a multipole with one strength and its order. -/
def orderedParent : Clause :=
  ⟨1, "P: MULT, KNL=1, ORDER=2".toList⟩

/-- The attributes in this definition. -/
def orderedAttributes : List (String × Literal) :=
  [("KNL", .expr (readNumber ['1'])), ("ORDER", .expr (readNumber ['2']))]

theorem spelled_orderedParent :
    spelled? .elegant orderedParent = some (.element "P" "MULT" orderedAttributes) := by
  rfl

theorem quiet_orderedParent : orderedParent.Quiet .elegant :=
  .of_element spelled_orderedParent
    (List.forall_mem_cons.2 ⟨trivial, List.forall_mem_singleton.2 trivial⟩)

theorem not_reserved_orderedParent : ¬ Dialect.elegant.Reserved "P" := by
  rintro (h | h) <;> exact absurd h (by decide)

/-- A deck in which another multipole starts from this one and has strengths of several orders. -/
def listedDeck : String :=
  "P: MULT, KNL=1, ORDER=2\nM: MARK\nX: P, KNL=\x7b0, 4\x7d\nC: LINE=(M, X)\n"

/-- The same with all attributes written out. -/
def listedDeckWritten : String :=
  "P: MULT, KNL=1, ORDER=2\nM: MARK\nX: MULT, KNL=1, ORDER=2, KNL=\x7b0, 4\x7d\nC: LINE=(M, X)\n"

theorem cut_listedDeck : cut .elegant listedDeck.toList = ⟨[orderedParent, ⟨2, "M: MARK".toList⟩,
    ⟨3, "X: P, KNL=\x7b0, 4\x7d".toList⟩, ⟨4, "C: LINE=(M, X)".toList⟩], none⟩ := by
  decide +kernel

theorem cut_listedDeckWritten : cut .elegant listedDeckWritten.toList = ⟨[orderedParent,
    ⟨2, "M: MARK".toList⟩, ⟨3, "X: MULT, KNL=1, ORDER=2, KNL=\x7b0, 4\x7d".toList⟩,
    ⟨4, "C: LINE=(M, X)".toList⟩], none⟩ := by
  decide +kernel

theorem spelled_listedMark :
    spelled? .elegant ⟨2, "M: MARK".toList⟩ = some (.element "M" "MARK" []) := by
  rfl

/-- What is inherited in this deck. -/
def listedInheritance : Inheritance .elegant listedDeck listedDeckWritten where
  before := []
  parent := orderedParent
  between := [⟨2, "M: MARK".toList⟩]
  heir := ⟨3, "X: P, KNL=\x7b0, 4\x7d".toList⟩
  written := ⟨3, "X: MULT, KNL=1, ORDER=2, KNL=\x7b0, 4\x7d".toList⟩
  after := [⟨4, "C: LINE=(M, X)".toList⟩]
  name := "P"
  keyword := "MULT"
  kind := .multipole
  attributes := orderedAttributes
  heirName := "X"
  own := [("KNL", .array [readNumber ['0'], readNumber ['4']])]
  clauses := by rw [cut_listedDeck]; rfl
  texts := by rw [cut_listedDeckWritten]; rfl
  title := by rw [cut_listedDeck, cut_listedDeckWritten]
  spelled_parent := spelled_orderedParent
  spelled_heir := by rfl
  spelled_written := by rfl
  kind_eq := by decide
  not_reserved := not_reserved_orderedParent
  depth := by decide
  quiet := List.forall_mem_cons.2 ⟨quiet_orderedParent,
    List.forall_mem_singleton.2 (.of_element spelled_listedMark nofun)⟩
  kept := by
    intro c hc word others h
    rw [List.mem_singleton.1 hc, spelled_listedMark] at h
    exact absurd (Statement.element.inj (Option.some.inj h)).1 (by decide)

/-- `readDeck_writtenOut` for this deck: the strengths are given as a list. -/
theorem readDeck_listedDeck : (readDeck .elegant listedDeckWritten).1.toOption =
    (readDeck .elegant listedDeck).1.toOption := by
  refine readDeck_writtenOut listedInheritance (.lists rfl fun p v hv hform => ?_)
  cases p with
  | knl =>
    cases hv
    exact Nat.succ_ne_self 1
  | ksl => cases hv
  | _ => cases hform

/-! ## The order of a multipole is not inherited -/

/-- A deck in which another multipole starts from that one and has a strength of its own. -/
def strongerDeck : String :=
  "P: MULT, KNL=1, ORDER=2\nX: P, KNL=5\nC: LINE=(X)\n"

/-- The same with all attributes written out. -/
def strongerDeckWritten : String :=
  "P: MULT, KNL=1, ORDER=2\nX: MULT, KNL=1, ORDER=2, KNL=5\nC: LINE=(X)\n"

theorem cut_strongerDeck : cut .elegant strongerDeck.toList =
    ⟨[orderedParent, ⟨2, "X: P, KNL=5".toList⟩, ⟨3, "C: LINE=(X)".toList⟩], none⟩ := by
  decide +kernel

theorem cut_strongerDeckWritten : cut .elegant strongerDeckWritten.toList = ⟨[orderedParent,
    ⟨2, "X: MULT, KNL=1, ORDER=2, KNL=5".toList⟩, ⟨3, "C: LINE=(X)".toList⟩], none⟩ := by
  decide +kernel

/-- What is inherited in this deck. -/
def strongerInheritance : Inheritance .elegant strongerDeck strongerDeckWritten where
  before := []
  parent := orderedParent
  between := []
  heir := ⟨2, "X: P, KNL=5".toList⟩
  written := ⟨2, "X: MULT, KNL=1, ORDER=2, KNL=5".toList⟩
  after := [⟨3, "C: LINE=(X)".toList⟩]
  name := "P"
  keyword := "MULT"
  kind := .multipole
  attributes := orderedAttributes
  heirName := "X"
  own := [("KNL", .expr (readNumber ['5']))]
  clauses := by rw [cut_strongerDeck]; rfl
  texts := by rw [cut_strongerDeckWritten]; rfl
  title := by rw [cut_strongerDeck, cut_strongerDeckWritten]
  spelled_parent := spelled_orderedParent
  spelled_heir := by rfl
  spelled_written := by rfl
  kind_eq := by decide
  not_reserved := not_reserved_orderedParent
  depth := by decide
  quiet := List.forall_mem_singleton.2 quiet_orderedParent
  kept := nofun

theorem elements_strongerDeck : (readDeck .elegant strongerDeck).1.toOption.map Document.elements =
    some [⟨"P", none, .multipole [0, 0, 1] none⟩, ⟨"X", none, .multipole [5] none⟩] := by
  decide +kernel

theorem elements_strongerDeckWritten :
    (readDeck .elegant strongerDeckWritten).1.toOption.map Document.elements =
      some [⟨"P", none, .multipole [0, 0, 1] none⟩, ⟨"X", none, .multipole [0, 0, 5] none⟩] := by
  decide +kernel

/-- Without this the documents differ: the order of the parent does not reach the strength that its
heir is given. -/
theorem not_readDeck_writtenOut : ¬ ∀ (d : Dialect) (text text' : String),
    Inheritance d text text' → (readDeck d text').1.toOption = (readDeck d text).1.toOption := by
  intro h
  have helements := congrArg (Option.map Document.elements) (h _ _ _ strongerInheritance)
  rw [elements_strongerDeck, elements_strongerDeckWritten] at helements
  exact absurd helements (by decide +kernel)

end Document

end Beamline

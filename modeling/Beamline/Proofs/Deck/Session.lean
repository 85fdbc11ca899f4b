import Beamline.Deck.Session
import Beamline.Proofs.Bind
import Beamline.Proofs.Deck.Writer

/-!
# What the statements of a deck do

* `Session.defineElement_eq` : the definition of an element adds it with its kind and parameters;
* `Session.defineLine_eq` : the definition of a line adds it with its names;
* `Session.clauses_elements`, `Session.clauses_lattices` : so do definitions one after the other;
* `Session.exists_clauses` : what the statements of a document leave behind.
-/

namespace Beamline

open Text Deck

variable {dl : Dialect}

/-- What is written of the element says what is kept of it. Below `2 ^ 53` an order is a float. -/
structure Element.Expressible (dl : Dialect) (e : Element) : Prop where
  writable : e.Writable dl
  orders : dl = .elegant → ∀ knl ksl, e.body = .multipole knl ksl → knl.length ≤ 2 ^ 53

namespace Deck

/-! ## Words -/

theorem kind?_keyword (dl : Dialect) (k : Kind) : dl.kind? (dl.keyword k) = some k := by
  cases dl <;> cases k <;> decide +kernel

theorem parameter?_attributeName (dl : Dialect) (k : Kind) : ∀ slot ∈ k.slots,
    (dl.attribute? slot.parameter).isSome →
    dl.parameter? k (attributeName dl slot.parameter) = some slot.parameter := by
  cases dl <;> cases k <;> decide +kernel

namespace Session

/-! ## Elements -/

/-- A parameter of a kind that the dialect has an attribute for, and a value of its form. -/
structure Fits (dl : Dialect) (k : Kind) (f : Parameter × Quantity) : Prop where
  slot : ∃ slot ∈ k.slots, slot.parameter = f.1
  spelled : (dl.attribute? f.1).isSome
  form : f.2.form = f.1.form
  finite : f.2.Finite

theorem fits_of_mem_fields {e : Element} (he : e.Lawful) (h : dl.Spells e.kind)
    {f : Parameter × Quantity} (hf : f ∈ e.body.fields) : Fits dl e.kind f := by
  have hmem := Body.mem_fields_iff.1 hf
  exact ⟨(e.body.slot_of_mem_settings _ hmem).2, isSome_attribute?_of_mem_fields h hf,
    e.body.form_of_mem_settings _ hmem _ rfl, he.finite _ _ hf⟩

theorem finite_eq_ok {x : Float} (hx : x.isFinite) : finite x = .ok x := by
  rw [finite, if_pos hx]

theorem number_eq_ok {v : Literal} {x : Float} (hv : Denotes v (.number x)) (vars : Variables) :
    number dl vars v = .ok (x, vars) := by
  cases v with
  | expr e => exact bind_eq_ok.2 ⟨x, hv vars, rfl⟩
  | text t => cases hv
  | array es => cases hv

theorem quantity_eq_ok {v : Literal} {q : Quantity} (hv : Denotes v q) (hq : q.Finite)
    (vars : Variables) : quantity dl vars q.form v = .ok (q, vars) := by
  cases q with
  | number x =>
    cases v with
    | expr e => exact bind_eq_ok.2 ⟨_, number_eq_ok hv vars, bind_eq_ok.2 ⟨x, finite_eq_ok hq, rfl⟩⟩
    | text s => cases hv
    | array es => cases hv
  | numbers xs =>
    cases v with
    | expr e => cases hv
    | text s => cases hv
    | array es =>
      refine bind_eq_ok.2 ⟨xs, mapM_eq_ok.2 ?_, bind_eq_ok.2 ⟨xs, mapM_eq_ok.2 ?_, rfl⟩⟩
      · exact List.Forall₂.flip (hv.imp fun x e h => h vars)
      · exact List.forall₂_same.2 fun x hx => finite_eq_ok (hq x hx)

/-- A number stands for a list too. -/
theorem quantity_numbers_eq_ok {v : Literal} {x : Float} (hv : Denotes v (.number x))
    (hx : x.isFinite) (vars : Variables) :
    quantity dl vars .numbers v = .ok (.numbers [x], vars) := by
  cases v with
  | expr e => exact bind_eq_ok.2 ⟨_, number_eq_ok hv vars, bind_eq_ok.2 ⟨x, finite_eq_ok hx, rfl⟩⟩
  | text s => cases hv
  | array es => cases hv

theorem order_eq_ok {v : Literal} {n : Nat} (hv : (Given.order n).Denoted v) (hn : n < 2 ^ 53)
    (vars : Variables) : order dl vars v = .ok (n, vars) := by
  refine bind_eq_ok.2 ⟨_, number_eq_ok hv vars, ?_⟩
  dsimp only
  rw [natural?_toFloat hn]
  rfl

theorem attribute_eq {name : String} {draft : Draft} {f : Parameter × Quantity} {v : Literal}
    (hf : Fits dl draft.definition.kind f) (hv : Denotes v f.2)
    (hnew : f.1 ∉ Table.keys draft.definition.fields) :
    draft.attribute dl name (attributeName dl f.1) v = .ok { draft with definition :=
      { draft.definition with fields := draft.definition.fields ++ [f] } } := by
  obtain ⟨slot, hslot, hparameter⟩ := hf.slot
  have hword := parameter?_attributeName dl draft.definition.kind slot hslot
  rw [hparameter] at hword
  have horder : attributeName dl f.1 ≠ "ORDER" := by
    cases dl <;> cases f.1 <;> decide
  have hvalue : draft.session.attempt draft.definition.line
      (quantity dl draft.session.vars f.1.form v) = .ok (f.2, draft.session.vars) := by
    rw [← hf.form, attempt, quantity_eq_ok hv hf.finite]
    rfl
  unfold Draft.attribute
  simp only [horder, and_false, if_false, hword hf.spelled]
  refine bind_eq_ok.2 ⟨_, hvalue, ?_⟩
  rw [Table.put_of_notMem hnew]
  rfl

theorem attributes_eq (name : String) {fields : List (Parameter × Quantity)}
    {settings : List (String × Literal)}
    (h : List.Forall₂ (fun f => ReadAs (attributeName dl f.1, .value f.2)) fields settings) :
    ∀ draft : Draft, (∀ f ∈ fields, Fits dl draft.definition.kind f) →
      (Table.keys (draft.definition.fields ++ fields)).Nodup →
      draft.attributes dl name settings = .ok { draft with definition :=
        { draft.definition with fields := draft.definition.fields ++ fields } } := by
  induction h with
  | nil =>
    intro draft _ _
    rw [List.append_nil]
    rfl
  | @cons f a fields settings ha _ ih =>
    intro draft hfields hnodup
    obtain ⟨key, v⟩ := a
    obtain ⟨rfl, hv⟩ := ha
    rw [List.forall_mem_cons] at hfields
    have hnew : f.1 ∉ Table.keys draft.definition.fields := by
      rw [Table.keys, List.map_append, List.map_cons] at hnodup
      exact notMem_of_nodup hnodup
    rw [Draft.attributes, attribute_eq hfields.1 hv hnew]
    have hrest := ih { draft with definition :=
      { draft.definition with fields := draft.definition.fields ++ [f] } } hfields.2
      (by simpa using hnodup)
    rw [List.append_assoc] at hrest
    exact hrest

/-- One strength and its order are read as they were written. -/
theorem attributes_single (name : String) (s : Session) (line : Nat) {k : Float} {n : Nat}
    {v w : Literal} (hv : Denotes v (.number k)) (hk : k.isFinite)
    (hw : (Given.order n).Denoted w) (hn : n < 2 ^ 53) :
    Draft.attributes .elegant name ⟨s, ⟨line, .multipole, []⟩, none⟩ [("KNL", v), ("ORDER", w)] =
      .ok ⟨s, ⟨line, .multipole, [(.knl, .numbers [k])]⟩, some n⟩ := by
  have hword : Dialect.elegant.parameter? .multipole "KNL" = some .knl := by decide +kernel
  have hstrength : Draft.attribute .elegant name ⟨s, ⟨line, .multipole, []⟩, none⟩ "KNL" v =
      .ok ⟨s, ⟨line, .multipole, [(.knl, .numbers [k])]⟩, none⟩ := by
    unfold Draft.attribute
    simp only [hword, attempt, Parameter.form, quantity_numbers_eq_ok hv hk]
    rfl
  have horder : Draft.attribute .elegant name
      ⟨s, ⟨line, .multipole, [(.knl, .numbers [k])]⟩, none⟩ "ORDER" w =
      .ok ⟨s, ⟨line, .multipole, [(.knl, .numbers [k])]⟩, some n⟩ := by
    unfold Draft.attribute
    rw [if_pos ⟨rfl, rfl⟩, order_eq_ok hw hn]
    rfl
  rw [Draft.attributes]
  refine bind_eq_ok.2 ⟨_, hstrength, ?_⟩
  rw [Draft.attributes]
  exact bind_eq_ok.2 ⟨_, horder, rfl⟩

/-- What has been read for an element. -/
structure Defined (e : Element) (entry : String × Definition) : Prop where
  name : entry.1 = e.name
  kind : entry.2.kind = e.kind
  fields : entry.2.fields = e.body.fields

/-- The attributes of an element are read as what is kept of it. -/
theorem exists_draft {e : Element} (he : e.Lawful) (hexpressible : e.Expressible dl) (s : Session)
    (line : Nat) {settings : List (String × Literal)}
    (h : List.Forall₂ ReadAs (attributesOf dl e) settings) : ∃ definition order,
      Draft.attributes dl e.name ⟨s, ⟨line, e.kind, []⟩, none⟩ settings =
        .ok ⟨s, definition, order⟩ ∧
      Defined (e.kept dl) (e.name, Draft.finish ⟨s, definition, order⟩) := by
  cases hexpressible.writable.written with
  | listed hspells hkept hattributes =>
    rw [hattributes, attributeList, List.forall₂_map_left_iff] at h
    refine ⟨⟨line, e.kind, e.body.fields⟩, none, ?_, by rw [hkept]; exact ⟨rfl, rfl, rfl⟩⟩
    exact attributes_eq e.name h ⟨s, ⟨line, e.kind, []⟩, none⟩
      (fun f hf => fits_of_mem_fields he hspells hf) e.body.nodup_keys_fields
  | @single knl ksl n k hdialect hbody horder hkept hattributes =>
    subst hdialect
    have halone := alone_of_singleOrder? horder
    have hkind : e.kind = .multipole := congrArg Body.kind hbody
    have hknl : ∀ x ∈ knl, x.isFinite := he.finite .knl (.numbers knl) (by
      rw [hbody]
      exact List.mem_cons_self)
    have hk : k.isFinite := halone.isFinite hknl k (List.mem_append_right _ List.mem_cons_self)
    have hn : n < 2 ^ 53 := halone.order_lt (by decide) (hexpressible.orders rfl knl ksl hbody)
    rw [hattributes] at h
    obtain ⟨⟨_, v⟩, _, ⟨rfl, hv⟩, htail, rfl⟩ := List.forall₂_cons_left_iff.1 h
    obtain ⟨⟨_, w⟩, _, ⟨rfl, hw⟩, hnil, rfl⟩ := List.forall₂_cons_left_iff.1 htail
    obtain rfl := List.forall₂_nil_left_iff.1 hnil
    rw [hkind]
    refine ⟨_, _, attributes_single e.name s line hv hk hw hn, rfl, ?_, ?_⟩
    · rw [Element.kind, hkept]
      rfl
    · rw [hkept]
      rfl

theorem defineElement_eq {e : Element} (he : e.Lawful) (hexpressible : e.Expressible dl)
    {s : Session} (hnew : e.name ∉ Table.keys s.elements) {settings : List (String × Literal)}
    (h : List.Forall₂ ReadAs (attributesOf dl e) settings) (line : Nat) :
    ∃ entry, Defined (e.kept dl) entry ∧
      defineElement dl s line e.name (dl.keyword e.kind) settings =
        .ok { s with elements := s.elements ++ [entry] } := by
  have hsequence : dl.keyword e.kind ≠ "SEQUENCE" := by
    cases dl <;> cases e.kind <;> decide
  obtain ⟨definition, order, hattributes, hdefined⟩ := exists_draft he hexpressible s line h
  refine ⟨_, hdefined, ?_⟩
  simp only [defineElement, hsequence, if_false, kind?_keyword]
  refine bind_eq_ok.2 ⟨_, hattributes, ?_⟩
  rw [Table.put_of_notMem hnew]
  rfl

/-! ## Lines -/

theorem arrange_names (lines : Lines) (names : List String) :
    arrange lines (names.map (.name 1 false)) = .ok (names, lines) := by
  induction names with
  | nil => rfl
  | cons name names ih =>
    rw [List.map_cons, arrange]
    exact bind_eq_ok.2 ⟨([name], lines), rfl, bind_eq_ok.2 ⟨_, ih, rfl⟩⟩

theorem defineLine_eq {s : Session} {name : String} (hnew : name ∉ Table.keys s.lines)
    (line : Nat) (names : List String) :
    s.defineLine line name (names.map (.name 1 false)) =
      .ok { s with lines := s.lines ++ [(name, names)], lastLine := some name } := by
  rw [defineLine, attempt, arrange_names, ← Table.put_of_notMem hnew]
  rfl

/-! ## Clauses -/

theorem clause_eq {s : Session} {c : Clause} (hdepth : bracketDepth c.text ≤ maxBracketDepth)
    (hcode : calculation? dl c = none) {st : Statement} (hst : parse c.text = .ok st) :
    s.clause dl c = s.statement dl c.line st := by
  rw [clause, if_neg (Nat.not_lt.2 hdepth), hcode, hst]
  rfl

theorem calculation?_coded {c : Clause} (hc : Coded c.text) : calculation? dl c = none := by
  unfold calculation?
  split
  · rename_i htext
    exact absurd rfl (hc.head '%' (by rw [htext]; rfl)).2
  · rfl

theorem clause_coded {s : Session} {c : Clause} (hc : Coded c.text) {st : Statement}
    (hst : parse c.text = .ok st) : s.clause dl c = s.statement dl c.line st :=
  clause_eq hc.depth (calculation?_coded hc) hst

/-- A clause that cannot be parsed fails. -/
theorem clause_error {s : Session} {c : Clause} (hc : Coded c.text) {flaw : Flaw}
    (hparse : parse c.text = .error flaw) : s.clause dl c = .error (s.fail c.line flaw) := by
  rw [clause, if_neg (Nat.not_lt.2 hc.depth), calculation?_coded hc, hparse]
  rfl

theorem clauses_cons {s t : Session} {c : Clause} (h : s.clause dl c = .ok (some t))
    (rest : List Clause) : s.clauses dl (c :: rest) = t.clauses dl rest := by
  rw [clauses, h]
  rfl

theorem clauses_elements {es : List Element}
    (h : ∀ e ∈ es, e.Lawful ∧ e.Expressible dl ∧ isPlainName e.name) (rest : List Clause) :
    ∀ (cs : List Clause) (s : Session),
      cs.map (·.text) = es.map (fun e => (elementStatement dl e).toList) →
      (Table.keys s.elements ++ es.map (·.name)).Nodup →
      ∃ entries, List.Forall₂ Defined (es.map (·.kept dl)) entries ∧ s.clauses dl (cs ++ rest) =
        ({ s with elements := s.elements ++ entries } : Session).clauses dl rest := by
  induction es with
  | nil =>
    intro cs s hcs _
    rw [List.map_nil, List.map_eq_nil_iff] at hcs
    rw [hcs]
    exact ⟨[], .nil, by rw [List.append_nil]; rfl⟩
  | cons e es ih =>
    intro cs s hcs hnodup
    rw [List.map_cons, List.map_eq_cons_iff] at hcs
    obtain ⟨c, cs, rfl, hc, hcs⟩ := hcs
    rw [List.forall_mem_cons] at h
    obtain ⟨⟨he, hexpressible, hname⟩, hes⟩ := h
    have hnew : e.name ∉ Table.keys s.elements := notMem_of_nodup hnodup
    have hline : dl.keyword e.kind ≠ "LINE" := by
      cases dl <;> cases e.kind <;> decide
    obtain ⟨settings, hparse, hall⟩ := parse_element hname (isPlainName_keyword dl e.kind) hline
      (plain_of_mem_attributesOf he hexpressible.writable)
    obtain ⟨entry, hentry, hdefine⟩ := defineElement_eq he hexpressible hnew hall c.line
    have hstep : s.clause dl c = .ok (some { s with elements := s.elements ++ [entry] }) := by
      have hcoded : Coded c.text := hc ▸ coded_elementStatement he hexpressible.writable hname
      rw [clause_coded hcoded (by rw [hc]; exact hparse)]
      exact bind_eq_ok.2 ⟨_, hdefine, rfl⟩
    obtain ⟨entries, hentries, hclauses⟩ := ih hes cs { s with elements := s.elements ++ [entry] }
      hcs (by simpa [Table.keys, hentry.name, Element.kept] using hnodup)
    refine ⟨entry :: entries, .cons hentry hentries, ?_⟩
    rw [List.cons_append, clauses_cons hstep, hclauses, List.append_assoc]
    rfl

theorem clauses_lattices {ls : List Lattice} (h : ∀ l ∈ ls, isPlainName l.name ∧
      l.references ≠ [] ∧ ∀ s ∈ l.references, isPlainName s) (rest : List Clause) :
    ∀ (cs : List Clause) (s : Session),
      cs.map (·.text) = ls.map (fun l => (latticeStatement l).toList) →
      (Table.keys s.lines ++ ls.map (·.name)).Nodup → ∃ last,
      s.clauses dl (cs ++ rest) = ({ s with
        lines := s.lines ++ ls.map fun l => (l.name, l.references)
        lastLine := last } : Session).clauses dl rest := by
  induction ls with
  | nil =>
    intro cs s hcs _
    rw [List.map_nil, List.map_eq_nil_iff] at hcs
    rw [hcs]
    exact ⟨s.lastLine, by rw [List.map_nil, List.append_nil]; rfl⟩
  | cons l ls ih =>
    intro cs s hcs hnodup
    rw [List.map_cons, List.map_eq_cons_iff] at hcs
    obtain ⟨c, cs, rfl, hc, hcs⟩ := hcs
    rw [List.forall_mem_cons] at h
    obtain ⟨⟨hname, hne, hnames⟩, hls⟩ := h
    have hnew : l.name ∉ Table.keys s.lines := notMem_of_nodup hnodup
    have hstep : s.clause dl c = .ok (some { s with
        lines := s.lines ++ [(l.name, l.references)], lastLine := some l.name }) := by
      have hcoded : Coded c.text := hc ▸ coded_latticeStatement hname hnames
      rw [clause_coded hcoded (by rw [hc]; exact parse_line hname hne hnames)]
      exact bind_eq_ok.2 ⟨_, defineLine_eq hnew c.line l.references, rfl⟩
    obtain ⟨last, hclauses⟩ := ih hls cs
      { s with lines := s.lines ++ [(l.name, l.references)], lastLine := some l.name } hcs
      (by simpa [Table.keys] using hnodup)
    refine ⟨last, ?_⟩
    rw [List.cons_append, clauses_cons hstep, hclauses, List.append_assoc]
    rfl

/-! ## Decks -/

/-- What the title and the statements of a document leave behind. -/
structure Describes (d : Document) (root : String) (s : Session) : Prop where
  title : s.title = some (d.title.getD root)
  root : s.root = some root
  elements : List.Forall₂ Defined d.elements s.elements
  lines : s.lines = d.inDependencyOrder.map fun l => (l.name, l.references)
  notes : s.notes = []

theorem clause_title {s : Session} {c : Clause} {title : List Char} (h : '"' ∉ title)
    (hc : c.text = titleText title) :
    s.clause .madx c = .ok (some { s with title := some (String.ofList title) }) := by
  have hdepth : bracketDepth c.text ≤ maxBracketDepth := by
    rw [hc, titleText, bracketDepth_title h]
    exact Nat.zero_le _
  rw [clause_eq hdepth rfl (by rw [hc]; exact parse_title h)]
  rfl

theorem clause_use {s : Session} {c : Clause} {root : String} (h : isPlainName root)
    (hc : c.text = useText root) : s.clause dl c = .ok (some { s with root := some root }) := by
  have hcoded : Coded c.text := hc ▸ coded_useText h
  rw [clause_coded hcoded (by rw [hc]; exact parse_use h)]
  have hupper : String.ofList (upper root.toList) = root := by
    rw [upper_of_isPlainName h, String.ofList_toList]
  simp only [statement, command, rootKeys, hupper, List.find?_cons_of_pos, List.contains_cons,
    BEq.rfl, Bool.true_or, Option.map_some]
  rfl

/-- The statements of a document behind its title leave behind what is kept of it. -/
theorem exists_clauses {d : Document} {root : String} (h : d.PlainNamed) (hlawful : d.Lawful)
    (hroot : d.root = some root) (hexpressible : ∀ e ∈ d.elements, e.Expressible dl)
    {cs : List Clause} (hcs : cs.map (·.text) = statements dl d root) :
    ∃ s, Session.clauses dl { title := some (d.title.getD root) } cs = .ok s ∧
      Describes (d.kept dl) root s := by
  obtain ⟨l, hl, rfl⟩ := hlawful.root root hroot
  have horder := hlawful.inDependencyOrder_perm
  rw [statements, List.append_assoc] at hcs
  obtain ⟨elements, cs, rfl, helements, hcs⟩ := List.map_eq_append_iff.1 hcs
  obtain ⟨lattices, cs, rfl, hlattices, hcs⟩ := List.map_eq_append_iff.1 hcs
  obtain ⟨last, cs, rfl, hlast, hcs⟩ := List.map_eq_cons_iff.1 hcs
  obtain rfl := List.map_eq_nil_iff.1 hcs
  obtain ⟨entries, hentries, heq⟩ := clauses_elements
    (fun e he => ⟨hlawful.elements e he, hexpressible e he, h.elementNames e he⟩)
    (lattices ++ [last]) elements { title := some (d.title.getD l.name) } helements
    (by simpa [Table.keys] using hlawful.elementNames)
  rw [heq]
  have hlines : ∀ l' ∈ d.inDependencyOrder, isPlainName l'.name ∧ l'.references ≠ [] ∧
      ∀ s ∈ l'.references, isPlainName s := fun l' hl' =>
    ⟨h.latticeNames l' (horder.mem_iff.1 hl'), h.references hlawful (horder.mem_iff.1 hl')⟩
  obtain ⟨lastLine, heq⟩ := clauses_lattices hlines [last] lattices
    { title := some (d.title.getD l.name), elements := [] ++ entries } hlattices (by
      simpa [Table.keys] using (horder.map (·.name)).nodup_iff.2 hlawful.latticeNames)
  rw [heq, clauses_cons (clause_use (h.latticeNames l hl) hlast)]
  exact ⟨_, rfl, rfl, rfl, hentries, by rw [d.inDependencyOrder_kept]; rfl, rfl⟩

end Session

end Deck

end Beamline

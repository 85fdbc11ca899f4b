import Beamline.Deck.Reader
import Beamline.Proofs.Deck.Lines
import Mathlib.Data.Option.Basic

/-!
# Sessions alike

What a deck describes does not depend on where its clauses stand or on what has been noted.

* `Session.Alike` : sessions with the same variables and elements, and the same lines, root and
  title as well if this is asked for;
* `Session.Alike.statement`, `Session.Alike.clause` : alike sessions do the same with a statement
  and with a clause, and stay alike;
* `Session.Agree`, `Session.Agree.append` : the same for clauses one after the other;
* `Session.Alike.document` : sessions that are alike in all this describe the same document;
* `readDeck_eq_of_agree` : so do decks on which the sessions agree.
-/

namespace Beamline

namespace Table

/-- Putting a value and changing all values can be done in either order. -/
theorem map_put {κ α β : Type} [BEq κ] (f : α → β) (key : κ) (v : α) (t : List (κ × α)) :
    (put key v t).map (fun e => (e.1, f e.2)) = put key (f v) (t.map fun e => (e.1, f e.2)) := by
  induction t with
  | nil => rfl
  | cons e t ih =>
    rw [List.map_cons, put, put]
    split
    · rfl
    · rw [List.map_cons, ih]

end Table

theorem rel_toOption {ε ε' α β : Type} {R : α → β → Prop} {x : Except ε α} {y : Except ε' β}
    (hx : ∀ a, x = .ok a → ∃ b, y = .ok b ∧ R a b) (hy : ∀ b, y = .ok b → ∃ a, x = .ok a) :
    Option.Rel R x.toOption y.toOption := by
  cases x with
  | ok a =>
    obtain ⟨b, rfl, h⟩ := hx a rfl
    exact .some h
  | error e =>
    cases y with
    | ok b =>
      obtain ⟨a, ha⟩ := hy b rfl
      cases ha
    | error e' => exact .none

namespace Deck

open Table

/-- The kind and the parameters of an element, wherever it is defined. -/
def Definition.outline (e : Definition) : Kind × List (Parameter × Quantity) :=
  (e.kind, e.fields)

namespace Session

variable {d : Dialect} {whole : Prop} {s t u : Session}

/-- Two sessions with the same variables and the same elements, wherever these are defined. If the
`whole` of them is alike, the lines, the root and the title are the same too. -/
structure Alike (whole : Prop) (s t : Session) : Prop where
  vars : s.vars = t.vars
  elements : s.elements.map (fun e => (e.1, e.2.outline)) =
    t.elements.map fun e => (e.1, e.2.outline)
  rest : whole → s.lines = t.lines ∧ s.lastLine = t.lastLine ∧ s.root = t.root ∧ s.title = t.title

namespace Alike

theorem refl (whole : Prop) (s : Session) : Alike whole s s :=
  ⟨rfl, rfl, fun _ => ⟨rfl, rfl, rfl, rfl⟩⟩

theorem symm (h : Alike whole s t) : Alike whole t s :=
  ⟨h.vars.symm, h.elements.symm, fun hwhole => by
    obtain ⟨hlines, hlast, hroot, htitle⟩ := h.rest hwhole
    exact ⟨hlines.symm, hlast.symm, hroot.symm, htitle.symm⟩⟩

/-- In alike sessions an element is defined as the same. -/
theorem shape_eq (h : Alike whole s t) (keyword : String) (attributes : List (String × Literal)) :
    s.shape? d keyword attributes = t.shape? d keyword attributes := by
  have hlookup : (s.elements.lookup keyword).map Definition.outline =
      (t.elements.lookup keyword).map Definition.outline := by
    rw [← lookup_map fun _ => Definition.outline, ← lookup_map fun _ => Definition.outline,
      h.elements]
  have hstart : start? d s.elements keyword = start? d t.elements keyword := by
    unfold start?
    cases d.kind? keyword with
    | some k => rfl
    | none => exact hlookup
  rw [shape?, shape?, hstart, h.vars]

/-! ## Statements -/

/-- Elements that are defined as the same keep sessions alike, however their definitions are
spelled. -/
theorem defineElement_of_shape (h : Alike whole s t) {line : Nat} (line' : Nat)
    {name keyword keyword' : String} {attributes attributes' : List (String × Literal)}
    {s' : Session} (hshape : s.shape? d keyword attributes = t.shape? d keyword' attributes')
    (hs : Session.defineElement d s line name keyword attributes = .ok s') :
    ∃ t', Session.defineElement d t line' name keyword' attributes' = .ok t' ∧
      Alike whole s' t' := by
  obtain ⟨e, notes, he, rfl⟩ := shape_of_defineElement hs
  rw [hshape] at he
  obtain ⟨notes', ht⟩ := defineElement_of_some line' name he
  refine ⟨_, ht, rfl, ?_, h.rest⟩
  rw [map_put, map_put, h.elements]
  rfl

theorem defineElement (h : Alike whole s t) {line : Nat} (line' : Nat) {name keyword : String}
    {attributes : List (String × Literal)} {s' : Session}
    (hs : Session.defineElement d s line name keyword attributes = .ok s') :
    ∃ t', Session.defineElement d t line' name keyword attributes = .ok t' ∧ Alike whole s' t' :=
  h.defineElement_of_shape line' (h.shape_eq keyword attributes) hs

theorem command (h : Alike whole s t) (keyword : String) (arguments : List Argument) :
    Option.Rel (Alike whole) (s.command keyword arguments) (t.command keyword arguments) := by
  have hrest := h.rest
  unfold Session.command
  split
  · refine .some ⟨h.vars, h.elements, fun hwhole => ?_⟩
    obtain ⟨hlines, hlast, -, htitle⟩ := hrest hwhole
    exact ⟨hlines, hlast, rfl, htitle⟩
  · refine .some ⟨h.vars, h.elements, fun hwhole => ?_⟩
    obtain ⟨hlines, hlast, hroot, -⟩ := hrest hwhole
    exact ⟨hlines, hlast, hroot, rfl⟩
  · exact .none
  · exact .none
  · exact .none
  · exact .some h

/-- Alike sessions do the same with a statement. A line is defined alike only if the lines are the
same before. -/
theorem statement (h : Alike whole s t) {line : Nat} (line' : Nat) {st : Statement}
    {next : Option Session}
    (hline : ∀ name items, st = .line name items → whole)
    (hs : s.statement d line st = .ok next) :
    ∃ next', t.statement d line' st = .ok next' ∧ Option.Rel (Alike whole) next next' := by
  cases st with
  | assign name value =>
    obtain ⟨x, hx, hs⟩ := bind_eq_ok.1 hs
    cases hs
    rw [attempt_eq_ok, h.vars] at hx
    refine ⟨_, bind_eq_ok.2 ⟨x, attempt_eq_ok.2 hx, rfl⟩, .some ⟨?_, h.elements, h.rest⟩⟩
    exact congrArg ((name, x) :: ·) h.vars
  | element name keyword attributes =>
    obtain ⟨s', hs', hs⟩ := bind_eq_ok.1 hs
    cases hs
    obtain ⟨t', ht', halike⟩ := h.defineElement line' hs'
    exact ⟨_, bind_eq_ok.2 ⟨t', ht', rfl⟩, .some halike⟩
  | line name items =>
    obtain ⟨s', hs', hs⟩ := bind_eq_ok.1 hs
    cases hs
    obtain ⟨r, hr, hs'⟩ := bind_eq_ok.1 hs'
    cases hs'
    obtain ⟨hlines, -, hroot, htitle⟩ := h.rest (hline name items rfl)
    rw [attempt_eq_ok, hlines] at hr
    refine ⟨_, bind_eq_ok.2 ⟨_, bind_eq_ok.2 ⟨r, attempt_eq_ok.2 hr, rfl⟩, rfl⟩, .some ?_⟩
    exact ⟨h.vars, h.elements, fun _ => ⟨rfl, rfl, hroot, htitle⟩⟩
  | command keyword arguments =>
    cases hs
    exact ⟨_, rfl, h.command keyword arguments⟩

end Alike

/-! ## Clauses -/

/-- Alike sessions do the same with clauses of the same text. -/
theorem Alike.clause (h : Alike whole s t) {c c' : Clause} (htext : c'.text = c.text)
    (hline : ∀ name items, spelled? d c = some (.line name items) → whole) {next : Option Session}
    (hs : s.clause d c = .ok next) :
    ∃ next', t.clause d c' = .ok next' ∧ Option.Rel (Alike whole) next next' := by
  obtain ⟨line, text⟩ := c
  obtain ⟨line', text'⟩ := c'
  cases htext
  rw [clause_eq_ok] at hs
  obtain ⟨hdeep, ⟨cs, r, hcs, hr, rfl⟩ | ⟨st, hst, hs⟩⟩ := hs
  · rw [h.vars] at hr
    exact ⟨_, clause_eq_ok.2 ⟨hdeep, .inl ⟨cs, r, hcs, hr, rfl⟩⟩, .some ⟨rfl, h.elements, h.rest⟩⟩
  · obtain ⟨next', ht, hnext⟩ := h.statement line'
      (fun name items heq => hline name items (heq ▸ hst)) hs
    exact ⟨next', clause_eq_ok.2 ⟨hdeep, .inr ⟨st, hst, ht⟩⟩, hnext⟩

/-- Two sessions in which clauses are carried out to the same effect, if they are carried out. -/
def Agree (d : Dialect) (s : Session) (cs : List Clause) (t : Session) (cs' : List Clause) : Prop :=
  Option.Rel (Alike True) (s.clauses d cs).toOption (t.clauses d cs').toOption

/-- Alike sessions agree on clauses if they do the same with the first ones and agree behind
these. -/
theorem Agree.step (h : Alike True s t) {c c' : Clause} {cs cs' : List Clause}
    (hfirst : Option.Rel (Option.Rel (Alike True)) (s.clause d c).toOption (t.clause d c').toOption)
    (hrest : ∀ s' t', s.clause d c = .ok (some s') → Alike True s' t' → Agree d s' cs t' cs') :
    Agree d s (c :: cs) t (c' :: cs') := by
  unfold Agree
  rw [clauses, clauses]
  cases hs : s.clause d c with
  | error f =>
    cases ht : t.clause d c' with
    | error f' => exact .none
    | ok next' =>
      rw [hs, ht] at hfirst
      cases hfirst
  | ok next =>
    cases ht : t.clause d c' with
    | error f' =>
      rw [hs, ht] at hfirst
      cases hfirst
    | ok next' =>
      rw [hs, ht] at hfirst
      cases hfirst with
      | some hnext =>
        cases hnext with
        | none => exact .some h
        | some halike => exact hrest _ _ hs halike

/-- They do the same with clauses of the same text. -/
theorem Agree.cons (h : Alike True s t) {c c' : Clause} {cs cs' : List Clause}
    (htext : c'.text = c.text)
    (hrest : ∀ s' t', s.clause d c = .ok (some s') → Alike True s' t' → Agree d s' cs t' cs') :
    Agree d s (c :: cs) t (c' :: cs') := by
  refine .step h (rel_toOption (fun next hnext => ?_) fun next' hnext' => ?_) hrest
  · exact h.clause htext (fun _ _ _ => trivial) hnext
  · obtain ⟨next, hnext, -⟩ := h.symm.clause htext.symm (fun _ _ _ => trivial) hnext'
    exact ⟨next, hnext⟩

/-- Alike sessions agree on clauses that begin with the same texts if they agree behind these. There
the first one has what is kept by each clause on the way. -/
theorem Agree.append {P : Session → Prop} {front cs cs' : List Clause}
    (hkept : ∀ c ∈ front, ∀ s t, P s → s.clause d c = .ok (some t) → P t)
    (hrest : ∀ s t ds, P s → Alike True s t → ds.map Clause.text = cs'.map Clause.text →
      Agree d s cs t ds) : ∀ {s t : Session} {ds : List Clause}, P s → Alike True s t →
      ds.map Clause.text = (front ++ cs').map Clause.text → Agree d s (front ++ cs) t ds := by
  induction front with
  | nil => exact fun hs h htexts => hrest _ _ _ hs h htexts
  | cons c front ih =>
    intro s t ds hs h htexts
    obtain ⟨c', ds, rfl, htext, htexts⟩ := List.map_eq_cons_iff.1 htexts
    refine .cons h htext fun s' t' hs' halike => ?_
    exact ih (fun c hc => hkept c (List.mem_cons_of_mem _ hc))
      (hkept c List.mem_cons_self s s' hs hs') halike htexts

/-- Alike sessions agree on clauses with the same texts. -/
theorem agree_of_texts {cs cs' : List Clause} (h : Alike True s t)
    (htexts : cs'.map Clause.text = cs.map Clause.text) : Agree d s cs t cs' := by
  rw [← List.append_nil cs] at htexts ⊢
  refine Agree.append (fun _ _ _ _ _ _ => trivial) (fun s t ds _ halike hds => ?_) trivial h htexts
  rw [List.map_eq_nil_iff.1 hds]
  exact .some halike

/-! ## Documents -/

theorem elementList_eq_ok {es : List Element} : s.elementList = .ok es ↔
    List.Forall₂ (fun e element => (⟨0, e.2.1, e.2.2⟩ : Definition).element e.1 = .ok element)
      (s.elements.map fun e => (e.1, e.2.outline)) es := by
  rw [elementList, mapM_eq_ok, List.forall₂_map_left_iff]
  exact iff_of_eq (congrArg (List.Forall₂ · s.elements es)
    (funext fun e => funext fun element => propext mapError_eq_ok))

/-- Alike sessions have the same elements. -/
theorem Alike.elementList (h : Alike whole s t) {es : List Element} :
    s.elementList = .ok es ↔ t.elementList = .ok es := by
  rw [elementList_eq_ok, elementList_eq_ok, h.elements]

/-- Sessions that are alike as a whole describe the same document. -/
theorem Alike.document (h : Alike True s t) :
    (s.document d).toOption = (t.document d).toOption := by
  obtain ⟨hlines, hlast, hroot, htitle⟩ := h.rest trivial
  unfold Session.document
  cases hs : s.elementList with
  | ok es =>
    have hbuilder : s.builder es = t.builder es := by
      rw [builder, builder, hlines, hlast, hroot, htitle]
    rw [h.elementList.1 hs]
    dsimp only
    rw [hbuilder]
  | error f =>
    cases ht : t.elementList with
    | ok es =>
      rw [h.elementList.2 ht] at hs
      cases hs
    | error f' => rfl

end Session

/-- Decks on whose clauses the sessions at the start agree describe the same document. -/
theorem readDeck_eq_of_agree {d : Dialect} {text text' : String}
    (h : Session.Agree d { title := (cut d text.toList).title } (cut d text.toList).clauses
      { title := (cut d text'.toList).title } (cut d text'.toList).clauses) :
    (Document.readDeck d text').1.toOption = (Document.readDeck d text).1.toOption := by
  have hread : ∀ text, (Document.readDeck d text).1.toOption =
      (Session.clauses d { title := (cut d text.toList).title }
        (cut d text.toList).clauses).toOption.bind fun s => (s.document d).toOption := by
    intro text
    unfold Document.readDeck
    dsimp only
    cases Session.clauses d { title := (cut d text.toList).title } (cut d text.toList).clauses with
    | error f => rfl
    | ok s => rfl
  rw [hread, hread]
  unfold Session.Agree at h
  generalize (Session.clauses d { title := (cut d text.toList).title }
    (cut d text.toList).clauses).toOption = x at h ⊢
  generalize (Session.clauses d { title := (cut d text'.toList).title }
    (cut d text'.toList).clauses).toOption = y at h ⊢
  cases h with
  | none => rfl
  | some halike => exact halike.document.symm

end Deck

end Beamline

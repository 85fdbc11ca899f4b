import Beamline.Proofs.Deck.Likeness

/-!
# What stores nothing

A value may store numbers in variables while it is computed, if it is a quoted expression of
elegant. Everything else leaves the variables alone, but for assignments and clauses that only
compute.

* `Postfix.Quiet`, `Literal.Quiet`, `Clause.Quiet` : there is nothing in them to be stored;
* `Postfix.vars_of_run`, `vars_of_outline`, `Session.vars_of_clause` : they leave the variables as
  they were.
-/

namespace Beamline

namespace Deck

open Table

/-! ## Postfix expressions -/

namespace Postfix

/-- No piece of a postfix expression stores a value. -/
def Quiet (cs : List Char) : Prop :=
  ∀ name, Token.store name ∉ (tokens cs).1

theorem vars_of_step {text : String} {m m' : Machine} {t : Token} (h : m.step text t = .ok m')
    (hquiet : ∀ name, t ≠ .store name) : m'.vars = m.vars := by
  unfold Machine.step at h
  split at h
  · cases h
    rfl
  · exact absurd rfl (hquiet _)
  · split at h <;> cases h
    rfl
  · split at h <;> cases h
    rfl
  · split at h
    · split at h <;> cases h
      rfl
    · split at h
      · cases h
        rfl
      · split at h
        · cases h
        · obtain ⟨y, -, h⟩ := bind_eq_ok.1 h
          cases h
          rfl

theorem vars_of_steps {text : String} {ts : List Token} (hquiet : ∀ name, .store name ∉ ts) :
    ∀ {m m' : Machine}, ts.foldlM (Machine.step text) m = .ok m' → m'.vars = m.vars := by
  induction ts with
  | nil =>
    intro m m' h
    cases h
    rfl
  | cons t ts ih =>
    intro m m' h
    rw [List.foldlM_cons] at h
    obtain ⟨m₁, hfirst, h⟩ := bind_eq_ok.1 h
    rw [ih (fun name hmem => hquiet name (List.mem_cons_of_mem _ hmem)) h]
    exact vars_of_step hfirst fun name heq => hquiet name (heq ▸ List.mem_cons_self)

/-- An expression that stores nothing leaves the variables as they were. -/
theorem vars_of_run {cs : List Char} {vars : Variables} {r : Float × Variables}
    (h : run cs vars = .ok r) (hquiet : Quiet cs) : r.2 = vars := by
  unfold run at h
  split at h
  · cases h
  · rename_i ts hts
    obtain ⟨m, hm, h⟩ := bind_eq_ok.1 h
    have hvars : m.vars = vars := by
      refine vars_of_steps (fun name hmem => hquiet name ?_) hm
      rw [hts]
      exact hmem
    split at h
    · cases h
      exact hvars
    · cases h

end Postfix

/-! ## Values -/

/-- No part of a value is stored while the value is computed. -/
def Literal.Quiet (d : Dialect) : Literal → Prop
  | .text t => d.quotesExpressions → Postfix.Quiet t.toList
  | _ => True

section Values

variable {d : Dialect} {vars : Variables} {v : Literal}

theorem vars_of_number {r : Float × Variables} (h : Session.number d vars v = .ok r)
    (hquiet : v.Quiet d) : r.2 = vars := by
  cases v with
  | expr e =>
    obtain ⟨x, -, h⟩ := bind_eq_ok.1 h
    cases h
    rfl
  | text t =>
    unfold Session.number at h
    dsimp only at h
    split at h
    · rename_i hquotes
      exact Postfix.vars_of_run h (hquiet hquotes)
    · cases h
  | array es => cases h

theorem vars_of_quantity {form : Form} {r : Quantity × Variables}
    (h : Session.quantity d vars form v = .ok r) (hquiet : v.Quiet d) : r.2 = vars := by
  unfold Session.quantity at h
  split at h
  · obtain ⟨xs, -, h⟩ := bind_eq_ok.1 h
    obtain ⟨ys, -, h⟩ := bind_eq_ok.1 h
    cases h
    rfl
  all_goals
    obtain ⟨x, hx, h⟩ := bind_eq_ok.1 h
    obtain ⟨y, -, h⟩ := bind_eq_ok.1 h
    cases h
    exact vars_of_number hx hquiet

theorem vars_of_order {r : Nat × Variables} (h : Session.order d vars v = .ok r)
    (hquiet : v.Quiet d) : r.2 = vars := by
  obtain ⟨x, hx, h⟩ := bind_eq_ok.1 h
  dsimp only at h
  split at h
  · cases h
    exact vars_of_number hx hquiet
  · cases h

theorem vars_of_lengthOf {attributes : List (String × Literal)}
    (hquiet : ∀ a ∈ attributes, a.2.Quiet d) : ∀ {length : Float} {vars : Variables}
    {r : Float × Variables}, Session.lengthOf d length vars attributes = .ok r → r.2 = vars := by
  induction attributes with
  | nil =>
    intro length vars r h
    cases h
    rfl
  | cons a attributes ih =>
    intro length vars r h
    have hrest : ∀ b ∈ attributes, b.2.Quiet d := fun b hb => hquiet b (List.mem_cons_of_mem _ hb)
    unfold Session.lengthOf at h
    split at h
    · obtain ⟨x, hx, h⟩ := bind_eq_ok.1 h
      rw [ih hrest h]
      exact vars_of_number hx (hquiet a List.mem_cons_self)
    · exact ih hrest h

end Values

/-! ## Elements -/

section Elements

variable {d : Dialect} {k : Kind}

theorem Sketch.vars_of_attribute {sk sk' : Sketch} {a : String × Literal}
    (h : sk.attribute d k a = some sk') (hquiet : a.2.Quiet d) : sk'.vars = sk.vars := by
  rcases attribute_cases h with ⟨-, r, hr, rfl⟩ | ⟨-, ⟨-, rfl⟩ | ⟨p, r, -, hr, rfl⟩⟩
  · exact vars_of_order hr hquiet
  · rfl
  · exact vars_of_quantity hr hquiet

/-- Attributes in which nothing is stored leave the variables as they were. -/
theorem vars_of_outline {vars : Variables} {start : Option (Kind × List (Parameter × Quantity))}
    {attributes : List (String × Literal)} {e : Shape}
    (h : outline? d vars start attributes = some e) (hquiet : ∀ a ∈ attributes, a.2.Quiet d) :
    e.vars = vars := by
  cases start with
  | some f =>
    obtain ⟨sk, hsk, rfl⟩ := Option.map_eq_some_iff.1 h
    refine Sketch.keep_of_foldlM (P := fun sk => sk.vars = vars) ?_ rfl hsk
    exact fun a ha sk sk' hvars h => (Sketch.vars_of_attribute h (hquiet a ha)).trans hvars
  | none =>
    obtain ⟨r, hr, h⟩ := Option.bind_eq_some_iff.1 h
    obtain ⟨length, -, rfl⟩ := Option.map_eq_some_iff.1 h
    exact vars_of_lengthOf hquiet (toOption_eq_some.1 hr)

theorem Session.vars_of_shape {s : Session} {keyword : String}
    {attributes : List (String × Literal)} {e : Shape} (h : s.shape? d keyword attributes = some e)
    (hquiet : ∀ a ∈ attributes, a.2.Quiet d) : e.vars = s.vars := by
  unfold Session.shape? at h
  split at h
  · cases h
  · exact vars_of_outline h hquiet

end Elements

/-! ## Clauses -/

/-- A clause assigns nothing, and nothing is stored where it computes. -/
structure Clause.Quiet (d : Dialect) (c : Clause) : Prop where
  calculation : ∀ cs, Session.calculation? d c = some cs → Postfix.Quiet cs
  assign : ∀ name value, spelled? d c ≠ some (.assign name value)
  element : ∀ name keyword attributes, spelled? d c = some (.element name keyword attributes) →
    ∀ a ∈ attributes, a.2.Quiet d

theorem Clause.Quiet.of_element {d : Dialect} {c : Clause} {name keyword : String}
    {attributes : List (String × Literal)}
    (h : spelled? d c = some (.element name keyword attributes))
    (hquiet : ∀ a ∈ attributes, a.2.Quiet d) : c.Quiet d := by
  refine ⟨fun cs hcs => ?_, fun other value heq => ?_, fun other word others heq => ?_⟩
  · rw [Session.spelled?_of_calculation hcs] at h
    cases h
  · rw [h] at heq
    cases heq
  · rw [h] at heq
    cases heq
    exact hquiet

namespace Session

variable {d : Dialect} {s t : Session} {c : Clause}

theorem vars_of_command {keyword : String} {arguments : List Argument}
    (h : s.command keyword arguments = some t) : t.vars = s.vars ∧ t.elements = s.elements := by
  unfold command at h
  split at h <;> cases h <;> exact ⟨rfl, rfl⟩

/-- A clause in which nothing is stored leaves the variables as they were. -/
theorem vars_of_clause (h : s.clause d c = .ok (some t)) (hquiet : c.Quiet d) :
    t.vars = s.vars := by
  obtain ⟨-, ⟨cs, r, hcs, hr, ht⟩ | ⟨st, hst, h⟩⟩ := clause_eq_ok.1 h
  · cases ht
    exact Postfix.vars_of_run hr (hquiet.calculation cs hcs)
  · cases st with
    | assign name value => exact absurd hst (hquiet.assign name value)
    | element name keyword attributes =>
      obtain ⟨t', ht, h⟩ := bind_eq_ok.1 h
      cases h
      obtain ⟨e, notes, he, rfl⟩ := shape_of_defineElement ht
      exact vars_of_shape he (hquiet.element name keyword attributes hst)
    | line name items =>
      obtain ⟨t', ht, h⟩ := bind_eq_ok.1 h
      cases h
      obtain ⟨r, -, ht⟩ := bind_eq_ok.1 ht
      cases ht
      rfl
    | command keyword arguments => exact (vars_of_command (Except.ok.inj h)).1

/-- A clause leaves the elements as they were, but for the one that it defines. -/
theorem lookup_of_clause {name : String} (h : s.clause d c = .ok (some t))
    (hname : ∀ keyword attributes, spelled? d c ≠ some (.element name keyword attributes)) :
    t.elements.lookup name = s.elements.lookup name := by
  obtain ⟨-, ⟨cs, r, hcs, hr, ht⟩ | ⟨st, hst, h⟩⟩ := clause_eq_ok.1 h
  · cases ht
    rfl
  · cases st with
    | assign other value =>
      obtain ⟨x, -, h⟩ := bind_eq_ok.1 h
      cases h
      rfl
    | element other keyword attributes =>
      obtain ⟨t', ht, h⟩ := bind_eq_ok.1 h
      cases h
      obtain ⟨e, notes, -, rfl⟩ := shape_of_defineElement ht
      refine (lookup_put other _ s.elements name).trans (if_neg ?_)
      rintro rfl
      exact hname keyword attributes hst
    | line other items =>
      obtain ⟨t', ht, h⟩ := bind_eq_ok.1 h
      cases h
      obtain ⟨r, -, ht⟩ := bind_eq_ok.1 ht
      cases ht
      rfl
    | command keyword arguments =>
      rw [(vars_of_command (Except.ok.inj h)).2]

end Session

end Deck

end Beamline

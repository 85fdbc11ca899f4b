import Beamline.Deck.Reader
import Beamline.Proofs.Deck.Lines
import Beamline.Proofs.Document.Elements

/-!
# Parameters and the forms of their values

* `Definition.Formed`, `Session.Formed` : every parameter of a defined element has a value of its
  form;
* `Session.formed_of_outline` : attributes have them in what an element is defined as;
* `Session.formed_of_clauses` : every clause keeps a session so, whatever it defines anew;
* `Session.exists_elementList` : the definitions of such a session are elements.
-/

namespace Beamline

/-- A remark is not required of any element. -/
theorem Kind.form_of_required {k : Kind} {p : Parameter} (h : p ∈ k.required) : p.form ≠ .text := by
  revert p
  cases k <;> decide

namespace Deck

open Table

/-! ## Values of the right form -/

/-- Every parameter that a definition gives has a value of its form. -/
def Definition.Formed (e : Definition) : Prop :=
  ∀ m ∈ e.fields, m.2.form = m.1.form

/-- All elements of a session are defined so. -/
def Session.Formed (s : Session) : Prop :=
  ∀ m ∈ s.elements, m.2.Formed

namespace Session

variable {d : Dialect} {s t : Session}

/-- No attribute stands for a remark. -/
theorem form_of_parameter? {k : Kind} {key : String} {p : Parameter}
    (h : d.parameter? k key = some p) : p.form ≠ .text := by
  have hfound := List.find?_some h
  have hattribute : d.attribute? p = some key := eq_of_beq hfound
  intro htext
  have hinfo : p = .info := by
    cases p <;> first | rfl | cases htext
  rw [hinfo] at hattribute
  cases d <;> cases hattribute

theorem form_of_quantity {vars vars' : Variables} {form : Form} {value : Literal} {q : Quantity}
    (hform : form ≠ .text) (h : quantity d vars form value = .ok (q, vars')) : q.form = form := by
  unfold quantity at h
  split at h
  · obtain ⟨xs, -, h⟩ := bind_eq_ok.1 h
    obtain ⟨ys, -, h⟩ := bind_eq_ok.1 h
    cases h
    rfl
  · obtain ⟨x, -, h⟩ := bind_eq_ok.1 h
    obtain ⟨y, -, h⟩ := bind_eq_ok.1 h
    cases h
    rfl
  · rename_i hnumbers _
    obtain ⟨x, -, h⟩ := bind_eq_ok.1 h
    obtain ⟨y, -, h⟩ := bind_eq_ok.1 h
    cases h
    cases form with
    | number => rfl
    | text => exact absurd rfl hform
    | numbers => exact (hnumbers rfl).elim

theorem formed_shiftToOrder {n : Nat} {fields : List (Parameter × Quantity)}
    (h : ∀ m ∈ fields, m.2.form = m.1.form) : ∀ m ∈ shiftToOrder n fields, m.2.form = m.1.form := by
  intro m hm
  obtain ⟨f, hf, rfl⟩ := List.mem_map.1 hm
  have hform := h f hf
  dsimp only
  split
  · rename_i x hx
    rw [hx] at hform
    exact hform
  · exact hform

theorem Formed.put (h : s.Formed) {name : String} {e : Definition} (he : e.Formed) :
    ∀ m ∈ put name e s.elements, m.2.Formed := by
  intro m hm
  rcases mem_of_mem_put hm with rfl | hm
  · exact he
  · exact h m hm

theorem formed_of_attribute {k : Kind} {a : String × Literal} {sk sk' : Sketch}
    (h : sk.attribute d k a = some sk') (hsk : ∀ m ∈ sk.fields, m.2.form = m.1.form) :
    ∀ m ∈ sk'.fields, m.2.form = m.1.form := by
  rcases Sketch.attribute_cases h with ⟨-, r, -, rfl⟩ | ⟨-, ⟨-, rfl⟩ | ⟨p, r, hp, hr, rfl⟩⟩
  · exact hsk
  · exact hsk
  · intro m hm
    rcases mem_of_mem_put hm with rfl | hm
    · exact form_of_quantity (form_of_parameter? hp) hr
    · exact hsk m hm

/-- An element is defined as one whose values have their forms if it starts from such an one. -/
theorem formed_of_outline {vars : Variables} {start : Option (Kind × List (Parameter × Quantity))}
    {attributes : List (String × Literal)} {e : Shape}
    (h : outline? d vars start attributes = some e)
    (hstart : ∀ f, start = some f → ∀ m ∈ f.2, m.2.form = m.1.form) :
    ∀ m ∈ e.fields, m.2.form = m.1.form := by
  cases start with
  | some f =>
    obtain ⟨sk, hsk, rfl⟩ := Option.map_eq_some_iff.1 h
    have hformed : ∀ m ∈ sk.fields, m.2.form = m.1.form := Sketch.keep_of_foldlM
      (P := fun sk => ∀ m ∈ sk.fields, m.2.form = m.1.form)
      (fun _ _ _ _ hsk h => formed_of_attribute h hsk) (hstart f rfl) hsk
    show ∀ m ∈ sk.finish, m.2.form = m.1.form
    unfold Sketch.finish
    split
    · exact hformed
    · exact formed_shiftToOrder hformed
  | none =>
    obtain ⟨r, -, h⟩ := Option.bind_eq_some_iff.1 h
    obtain ⟨length, -, rfl⟩ := Option.map_eq_some_iff.1 h
    exact List.forall_mem_singleton.2 rfl

theorem formed_of_defineElement {line : Nat} {name keyword : String}
    {attributes : List (String × Literal)} (hs : s.Formed)
    (h : defineElement d s line name keyword attributes = .ok t) : t.Formed := by
  obtain ⟨e, notes, he, rfl⟩ := shape_of_defineElement h
  unfold shape? at he
  split at he
  · cases he
  · refine hs.put (formed_of_outline he fun f hf => ?_)
    unfold start? at hf
    split at hf
    · cases hf
      exact fun m hm => absurd hm List.not_mem_nil
    · obtain ⟨parent, hparent, rfl⟩ := Option.map_eq_some_iff.1 hf
      exact hs _ (mem_of_lookup hparent)

theorem formed_of_statement {line : Nat} {st : Statement} (hs : s.Formed)
    (h : s.statement d line st = .ok (some t)) : t.Formed := by
  cases st with
  | assign name value =>
    obtain ⟨x, -, h⟩ := bind_eq_ok.1 h
    cases h
    exact hs
  | element name keyword attributes =>
    obtain ⟨t', ht, h⟩ := bind_eq_ok.1 h
    cases h
    exact formed_of_defineElement hs ht
  | line name items =>
    obtain ⟨t', ht, h⟩ := bind_eq_ok.1 h
    cases h
    obtain ⟨x, -, ht⟩ := bind_eq_ok.1 ht
    cases ht
    exact hs
  | command keyword arguments =>
    have hcommand : s.command keyword arguments = some t := Except.ok.inj h
    unfold command at hcommand
    split at hcommand <;> cases hcommand <;> exact hs

theorem formed_of_clause {c : Clause} (hs : s.Formed) (h : s.clause d c = .ok (some t)) :
    t.Formed := by
  rcases statement_of_clause h with ⟨-, vars, ht⟩ | ⟨st, -, h⟩
  · cases ht
    exact hs
  · exact formed_of_statement hs h

/-- Whatever clauses are carried out, the values of all parameters have their forms. -/
theorem formed_of_clauses {cs : List Clause} : ∀ {s t : Session}, s.Formed →
    s.clauses d cs = .ok t → t.Formed := by
  induction cs with
  | nil =>
    intro s t hs h
    cases h
    exact hs
  | cons c cs ih =>
    intro s t hs h
    obtain ⟨next, hclause, h⟩ := bind_eq_ok.1 h
    cases next with
    | none =>
      cases h
      exact hs
    | some s₁ => exact ih (formed_of_clause hs hclause) h

end Session

/-! ## Elements -/

theorem form_missingValue {form : Form} (h : form ≠ .text) : (missingValue form).form = form := by
  cases form with
  | number => rfl
  | text => exact absurd rfl h
  | numbers => rfl

theorem Definition.form_of_value {e : Definition} (he : e.Formed) {p : Parameter} {q : Quantity}
    (h : e.value p = some q) : q.form = p.form := by
  unfold Definition.value at h
  split at h
  · rename_i q' hlookup
    cases h
    exact he _ (mem_of_lookup hlookup)
  · split at h
    · rename_i hrequired
      cases h
      exact form_missingValue (Kind.form_of_required (List.contains_iff_mem.1 hrequired))
    · cases h

theorem Definition.isSome_value (e : Definition) {p : Parameter} (h : p ∈ e.kind.required) :
    (e.value p).isSome := by
  unfold Definition.value
  split
  · rfl
  · rw [if_pos (List.contains_iff_mem.2 h)]
    rfl

theorem Definition.provides {e : Definition} (he : e.Formed) {slot : Slot}
    (hslot : slot ∈ e.kind.slots) :
    Provides (fun _ _ => True) (.ofQuantities e.value) slot := by
  cases hvalue : e.value slot.parameter with
  | none =>
    have hoptional : slot.required ≠ true := by
      intro hrequired
      have hsome := e.isSome_value (List.mem_map_of_mem (List.mem_filter.2 ⟨hslot, hrequired⟩))
      rw [hvalue] at hsome
      cases hsome
    exact ⟨fun _ => ⟨none, by simp only [Body.Source.ofQuantities, hvalue],
        fun hrequired => absurd hrequired hoptional, nofun⟩,
      fun _ => ⟨none, by simp only [Body.Source.ofQuantities, hvalue],
        fun hrequired => absurd hrequired hoptional, nofun⟩⟩
  | some q =>
    have hform := form_of_value he hvalue
    cases q with
    | number x =>
      refine ⟨fun _ => ⟨some x, by simp only [Body.Source.ofQuantities, hvalue], fun _ => rfl,
        fun _ _ => trivial⟩, fun hnumbers => ?_⟩
      cases hform.trans hnumbers
    | numbers xs =>
      refine ⟨fun hnumber => ?_, fun _ => ⟨some xs, by simp only [Body.Source.ofQuantities, hvalue],
        fun _ => rfl, fun _ _ => trivial⟩⟩
      cases hform.trans hnumber

/-- A definition whose values have their forms is an element. -/
theorem Definition.exists_element {e : Definition} (he : e.Formed) (name : String) :
    ∃ element, e.element name = .ok element := by
  obtain ⟨body, hbody, -, -⟩ := exists_ofSource fun slot hslot => e.provides he hslot
  exact ⟨⟨name, none, body⟩, bind_eq_ok.2 ⟨body, hbody, rfl⟩⟩

theorem Session.exists_elementList {s : Session} (hs : s.Formed) :
    ∃ es, s.elementList = .ok es := by
  obtain ⟨es, hes⟩ := exists_forall₂ fun m (hm : m ∈ s.elements) =>
    Definition.exists_element (hs m hm) m.1
  refine ⟨es, mapM_eq_ok.2 (hes.imp fun m element h => ?_)⟩
  exact mapError_eq_ok.2 h

end Deck

end Beamline

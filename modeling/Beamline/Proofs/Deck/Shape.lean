import Beamline.Deck.Session
import Beamline.Proofs.Bind
import Beamline.Proofs.Table

/-!
# What an element is defined as

The kind and the parameters of an element come from what it starts from, the variables and its
attributes, whatever else has been read.

* `Sketch`, `Sketch.attribute` : what has been gathered of the attributes of an element;
* `Sketch.attribute_cases`, `Sketch.keep_of_foldlM` : what an attribute does, and what all of them
  keep;
* `outline?`, `Session.shape?` : what an element is defined as, if it can be defined;
* `Session.defineElement_of_some`, `Session.defineElement_of_none` : the definition of an element
  puts this among the elements, or it fails;
* `Session.shape_of_defineElement` : what an element was defined as.
-/

namespace Beamline

namespace Deck

open Table

/-- What has been gathered of the attributes of an element: its parameters, the order if one has
been given, and the variables. -/
structure Sketch where
  vars : Variables
  fields : List (Parameter × Quantity)
  order : Option Nat := none

/-- Takes in one attribute of an element of kind `k`, if it has a value. -/
def Sketch.attribute (d : Dialect) (k : Kind) (sk : Sketch) (a : String × Literal) :
    Option Sketch :=
  if k = .multipole ∧ a.1 = "ORDER" then
    (Session.order d sk.vars a.2).toOption.map fun r => { sk with vars := r.2, order := some r.1 }
  else
    match d.parameter? k a.1 with
    | none => some sk
    | some p => (Session.quantity d sk.vars p.form a.2).toOption.map fun r =>
      { sk with vars := r.2, fields := put p r.1 sk.fields }

/-- The parameters with the order taken into account. -/
def Sketch.finish (sk : Sketch) : List (Parameter × Quantity) :=
  match sk.order with
  | none => sk.fields
  | some n => Session.shiftToOrder n sk.fields

/-- An element as it is defined, and the variables after it. -/
structure Shape where
  kind : Kind
  fields : List (Parameter × Quantity)
  vars : Variables

/-- What an element is defined as by its attributes, if these have values. It starts from a kind
with some parameters; without such a start it is a drift. -/
def outline? (d : Dialect) (vars : Variables) (start : Option (Kind × List (Parameter × Quantity)))
    (attributes : List (String × Literal)) : Option Shape :=
  match start with
  | some (k, fields) =>
    (attributes.foldlM (Sketch.attribute d k) ⟨vars, fields, none⟩).map fun sk =>
      ⟨k, sk.finish, sk.vars⟩
  | none =>
    (Session.lengthOf d 0 vars attributes).toOption.bind fun r =>
      (Session.finite r.1).toOption.map fun length =>
        ⟨.drift, [(.length, .number length)], r.2⟩

/-- What an element starts from if it has the given keyword: a kind, or another element. -/
def start? (d : Dialect) (elements : List (String × Definition)) (keyword : String) :
    Option (Kind × List (Parameter × Quantity)) :=
  match d.kind? keyword with
  | some k => some (k, [])
  | none => (elements.lookup keyword).map fun e => (e.kind, e.fields)

namespace Sketch

variable {d : Dialect} {k : Kind}

/-- An attribute gives an order, or nothing, or the value of a parameter. -/
theorem attribute_cases {sk sk' : Sketch} {a : String × Literal}
    (h : sk.attribute d k a = some sk') :
    ((k = .multipole ∧ a.1 = "ORDER") ∧ ∃ r, Session.order d sk.vars a.2 = .ok r ∧
      sk' = { sk with vars := r.2, order := some r.1 }) ∨
    ¬ (k = .multipole ∧ a.1 = "ORDER") ∧ (d.parameter? k a.1 = none ∧ sk' = sk ∨
      ∃ p r, d.parameter? k a.1 = some p ∧ Session.quantity d sk.vars p.form a.2 = .ok r ∧
        sk' = { sk with vars := r.2, fields := put p r.1 sk.fields }) := by
  unfold Sketch.attribute at h
  split at h
  · rename_i horder
    obtain ⟨r, hr, rfl⟩ := Option.map_eq_some_iff.1 h
    exact .inl ⟨horder, r, toOption_eq_some.1 hr, rfl⟩
  · rename_i horder
    refine .inr ⟨horder, ?_⟩
    split at h
    · rename_i hp
      exact .inl ⟨hp, (Option.some.inj h).symm⟩
    · rename_i p hp
      obtain ⟨r, hr, rfl⟩ := Option.map_eq_some_iff.1 h
      exact .inr ⟨p, r, hp, toOption_eq_some.1 hr, rfl⟩

/-- What each attribute keeps, attributes one after the other keep. -/
theorem keep_of_foldlM {P : Sketch → Prop} {attributes : List (String × Literal)}
    (hkept : ∀ a ∈ attributes, ∀ sk sk' : Sketch, P sk → sk.attribute d k a = some sk' → P sk') :
    ∀ {sk sk' : Sketch}, P sk → attributes.foldlM (Sketch.attribute d k) sk = some sk' →
      P sk' := by
  induction attributes with
  | nil =>
    intro sk sk' hsk h
    cases h
    exact hsk
  | cons a attributes ih =>
    intro sk sk' hsk h
    rw [List.foldlM_cons] at h
    obtain ⟨sk₁, hfirst, h⟩ := Option.bind_eq_some_iff.1 h
    exact ih (fun b hb => hkept b (List.mem_cons_of_mem _ hb))
      (hkept a List.mem_cons_self sk sk₁ hsk hfirst) h

end Sketch

namespace Session

variable {d : Dialect} {name : String}

/-- What an element is defined as in a session, if it can be defined. -/
def shape? (d : Dialect) (s : Session) (keyword : String) (attributes : List (String × Literal)) :
    Option Shape :=
  if keyword = "SEQUENCE" then none
  else outline? d s.vars (start? d s.elements keyword) attributes

/-- What a draft has gathered. -/
def Draft.sketch (draft : Draft) : Sketch :=
  ⟨draft.session.vars, draft.definition.fields, draft.order⟩

/-- A draft that has gathered something else. -/
def Draft.withSketch (draft : Draft) (sk : Sketch) (notes : List Note) : Draft where
  session := { draft.session with vars := sk.vars, notes }
  definition := { draft.definition with fields := sk.fields }
  order := sk.order

theorem attempt_of_none {α : Type} {s : Session} {line : Nat} {x : Except Flaw α}
    (h : x.toOption = none) : ∃ f, s.attempt line x = .error f := by
  obtain ⟨e, rfl⟩ := toOption_eq_none.1 h
  exact ⟨_, rfl⟩

theorem attempt_of_some {α : Type} {s : Session} {line : Nat} {x : Except Flaw α} {a : α}
    (h : x.toOption = some a) : s.attempt line x = .ok a := by
  rw [toOption_eq_some.1 h]
  rfl

section Attributes

variable {draft : Draft}

/-- An attribute that has a value is taken in as in the sketch. -/
theorem attribute_of_some (name : String) {key : String} {value : Literal} {sk : Sketch}
    (h : draft.sketch.attribute d draft.definition.kind (key, value) = some sk) :
    ∃ notes, draft.attribute d name key value = .ok (draft.withSketch sk notes) := by
  unfold Sketch.attribute at h
  unfold Draft.attribute
  dsimp only at h ⊢
  split
  · rename_i horder
    rw [if_pos horder] at h
    obtain ⟨r, hr, rfl⟩ := Option.map_eq_some_iff.1 h
    exact ⟨_, bind_eq_ok.2 ⟨r, attempt_of_some hr, rfl⟩⟩
  · rename_i horder
    rw [if_neg horder] at h
    cases hp : d.parameter? draft.definition.kind key with
    | none =>
      rw [hp] at h
      cases h
      exact ⟨_, rfl⟩
    | some p =>
      rw [hp] at h
      obtain ⟨r, hr, rfl⟩ := Option.map_eq_some_iff.1 h
      exact ⟨_, bind_eq_ok.2 ⟨r, attempt_of_some hr, rfl⟩⟩

theorem attribute_of_none (name : String) {key : String} {value : Literal}
    (h : draft.sketch.attribute d draft.definition.kind (key, value) = none) :
    ∃ f, draft.attribute d name key value = .error f := by
  unfold Sketch.attribute at h
  unfold Draft.attribute
  dsimp only at h ⊢
  split
  · rename_i horder
    rw [if_pos horder, Option.map_eq_none_iff] at h
    exact bind_of_error (attempt_of_none h)
  · rename_i horder
    rw [if_neg horder] at h
    cases hp : d.parameter? draft.definition.kind key with
    | none =>
      rw [hp] at h
      cases h
    | some p =>
      rw [hp, Option.map_eq_none_iff] at h
      exact bind_of_error (attempt_of_none h)

/-- An attribute that was taken in is in the sketch. -/
theorem sketch_of_attribute {key : String} {value : Literal} {draft' : Draft}
    (h : draft.attribute d name key value = .ok draft') :
    ∃ sk notes, draft.sketch.attribute d draft.definition.kind (key, value) = some sk ∧
      draft' = draft.withSketch sk notes := by
  cases hsk : draft.sketch.attribute d draft.definition.kind (key, value) with
  | none =>
    obtain ⟨f, hf⟩ := attribute_of_none name hsk
    rw [h] at hf
    cases hf
  | some sk =>
    obtain ⟨notes, heq⟩ := attribute_of_some name hsk
    rw [h] at heq
    cases heq
    exact ⟨sk, notes, rfl, rfl⟩

theorem attributes_of_some (name : String) {attributes : List (String × Literal)} :
    ∀ (draft : Draft) {sk : Sketch},
    attributes.foldlM (Sketch.attribute d draft.definition.kind) draft.sketch = some sk →
    ∃ notes, draft.attributes d name attributes = .ok (draft.withSketch sk notes) := by
  induction attributes with
  | nil =>
    intro draft sk h
    cases h
    exact ⟨draft.session.notes, rfl⟩
  | cons a attributes ih =>
    intro draft sk h
    rw [List.foldlM_cons] at h
    obtain ⟨sk₁, hfirst, hrest⟩ := Option.bind_eq_some_iff.1 h
    obtain ⟨notes₁, hfirst⟩ := attribute_of_some name hfirst
    obtain ⟨notes, hrest⟩ := ih (draft.withSketch sk₁ notes₁) hrest
    exact ⟨notes, bind_eq_ok.2 ⟨_, hfirst, hrest⟩⟩

theorem attributes_of_none (name : String) {attributes : List (String × Literal)} :
    ∀ draft : Draft,
    attributes.foldlM (Sketch.attribute d draft.definition.kind) draft.sketch = none →
    ∃ f, draft.attributes d name attributes = .error f := by
  induction attributes with
  | nil =>
    intro draft h
    cases h
  | cons a attributes ih =>
    intro draft h
    rw [List.foldlM_cons] at h
    cases hfirst : draft.sketch.attribute d draft.definition.kind a with
    | none => exact bind_of_error (attribute_of_none name hfirst)
    | some sk₁ =>
      rw [hfirst] at h
      obtain ⟨notes₁, hfirst⟩ := attribute_of_some name hfirst
      exact bind_error_of_ok hfirst (ih (draft.withSketch sk₁ notes₁) h)

theorem withSketch_finish (sk : Sketch) (notes : List Note) : (draft.withSketch sk notes).finish =
    ⟨draft.definition.line, draft.definition.kind, sk.finish⟩ := by
  unfold Draft.finish Sketch.finish
  cases h : sk.order <;> simp only [Draft.withSketch, h]

end Attributes

section Elements

variable {s : Session} {line : Nat} {keyword : String} {attributes : List (String × Literal)}

/-- Without a kind or another element to start from, an element is of an unknown kind. -/
theorem defineElement_of_unknown (hkeyword : keyword ≠ "SEQUENCE")
    (h : start? d s.elements keyword = none) :
    defineElement d s line name keyword attributes =
      defineUnknown d s line name keyword attributes := by
  unfold start? at h
  unfold defineElement
  rw [if_neg hkeyword]
  cases hkind : d.kind? keyword with
  | some k =>
    rw [hkind] at h
    cases h
  | none =>
    rw [hkind, Option.map_eq_none_iff] at h
    rw [h]
    rfl

/-- With one, it takes in its attributes from there. -/
theorem defineElement_of_start {f : Kind × List (Parameter × Quantity)}
    (hkeyword : keyword ≠ "SEQUENCE") (h : start? d s.elements keyword = some f) :
    defineElement d s line name keyword attributes =
      Draft.attributes d name { session := s, definition := ⟨line, f.1, f.2⟩ } attributes >>=
        fun draft => .ok { draft.session with
          elements := put name draft.finish draft.session.elements } := by
  unfold start? at h
  unfold defineElement
  rw [if_neg hkeyword]
  cases hkind : d.kind? keyword with
  | some k =>
    rw [hkind] at h
    cases h
    rfl
  | none =>
    rw [hkind] at h
    obtain ⟨parent, hparent, rfl⟩ := Option.map_eq_some_iff.1 h
    rw [hparent]
    rfl

/-- An element that can be defined is put among the elements. -/
theorem defineElement_of_some (line : Nat) (name : String) {e : Shape}
    (h : s.shape? d keyword attributes = some e) :
    ∃ notes, defineElement d s line name keyword attributes = .ok { s with
      vars := e.vars
      elements := put name ⟨line, e.kind, e.fields⟩ s.elements
      notes } := by
  unfold shape? at h
  split at h
  · cases h
  · rename_i hkeyword
    cases hstart : start? d s.elements keyword with
    | none =>
      rw [hstart] at h
      obtain ⟨r, hr, h⟩ := Option.bind_eq_some_iff.1 h
      obtain ⟨length, hlength, rfl⟩ := Option.map_eq_some_iff.1 h
      rw [defineElement_of_unknown hkeyword hstart]
      exact ⟨_, bind_eq_ok.2 ⟨r, attempt_of_some hr, bind_eq_ok.2
        ⟨length, attempt_of_some hlength, rfl⟩⟩⟩
    | some f =>
      rw [hstart] at h
      obtain ⟨sk, hsk, rfl⟩ := Option.map_eq_some_iff.1 h
      obtain ⟨notes, hdraft⟩ := attributes_of_some name
        { session := s, definition := ⟨line, f.1, f.2⟩ } hsk
      rw [defineElement_of_start hkeyword hstart]
      refine ⟨notes, bind_eq_ok.2 ⟨_, hdraft, ?_⟩⟩
      rw [withSketch_finish]
      rfl

theorem defineElement_of_none (line : Nat) (name : String)
    (h : s.shape? d keyword attributes = none) :
    ∃ f, defineElement d s line name keyword attributes = .error f := by
  unfold shape? at h
  split at h
  · rename_i hkeyword
    exact ⟨_, if_pos hkeyword⟩
  · rename_i hkeyword
    cases hstart : start? d s.elements keyword with
    | none =>
      rw [hstart] at h
      rw [defineElement_of_unknown hkeyword hstart]
      unfold outline? at h
      cases hr : (lengthOf d 0 s.vars attributes).toOption with
      | none => exact bind_of_error (attempt_of_none hr)
      | some r =>
        rw [hr, Option.bind_some, Option.map_eq_none_iff] at h
        exact bind_error_of_ok (attempt_of_some hr) (bind_of_error (attempt_of_none h))
    | some f =>
      rw [hstart] at h
      rw [defineElement_of_start hkeyword hstart]
      exact bind_of_error (attributes_of_none name
        { session := s, definition := ⟨line, f.1, f.2⟩ } (Option.map_eq_none_iff.1 h))

/-- An element that was defined could be defined, and all else but the notes is as it was. -/
theorem shape_of_defineElement {t : Session}
    (h : defineElement d s line name keyword attributes = .ok t) :
    ∃ e notes, s.shape? d keyword attributes = some e ∧ t = { s with
      vars := e.vars
      elements := put name ⟨line, e.kind, e.fields⟩ s.elements
      notes } := by
  cases hshape : s.shape? d keyword attributes with
  | none =>
    obtain ⟨f, hf⟩ := defineElement_of_none line name hshape
    rw [h] at hf
    cases hf
  | some e =>
    obtain ⟨notes, ht⟩ := defineElement_of_some line name hshape
    rw [h] at ht
    cases ht
    exact ⟨e, notes, rfl, rfl⟩

end Elements

end Session

end Deck

end Beamline

import Mathlib.Data.List.Chain
import Mathlib.Logic.Relation

/-!
# Reaching and layers

A relation says which nodes stand below which.

* `Layered` : a list in which everything below a node comes behind it;
* `not_transGen_self_of_layered` : no node of such a list reaches itself;
* `Circuit` : a walk that ends where it began and passes every other node once;
* `exists_head_transGen_of_circuit` : the first node of a circuit reaches itself;
* `Circuit.transGen_self` : and so does every other node of it.
-/

namespace Beamline.Reach

variable {α : Type} {R : α → α → Prop}

/-- Everything below a node of the list comes behind the node. -/
def Layered (R : α → α → Prop) : List α → Prop
  | [] => True
  | a :: rest => (∀ b, R a b → b ∈ rest) ∧ Layered R rest

theorem Layered.mem_of_rel {nodes : List α} (h : Layered R nodes) {a b : α} (ha : a ∈ nodes)
    (hab : R a b) : b ∈ nodes := by
  induction nodes with
  | nil => cases ha
  | cons c nodes ih =>
    rcases List.mem_cons.1 ha with rfl | ha
    · exact List.mem_cons_of_mem _ (h.1 b hab)
    · exact List.mem_cons_of_mem _ (ih h.2 ha)

/-- A list stays layered when some of the relation is left out. -/
theorem Layered.mono {S : α → α → Prop} {nodes : List α} (h : Layered R nodes)
    (hsub : ∀ a b, S a b → R a b) : Layered S nodes := by
  induction nodes with
  | nil => trivial
  | cons a nodes ih => exact ⟨fun b hb => h.1 b (hsub a b hb), ih h.2⟩

theorem Layered.of_append {above nodes : List α} (h : Layered R (above ++ nodes)) :
    Layered R nodes := by
  induction above with
  | nil => exact h
  | cons a above ih => exact ih h.2

/-- What is reached from a layered list is in it. -/
theorem Layered.mem_of_transGen {nodes : List α} (h : Layered R nodes) {a b : α} (ha : a ∈ nodes)
    (hab : Relation.TransGen R a b) : b ∈ nodes := by
  induction hab with
  | single hb => exact h.mem_of_rel ha hb
  | tail _ hb ih => exact h.mem_of_rel ih hb

/-- No node of a layered list reaches itself. -/
theorem not_transGen_self_of_layered {nodes : List α} (h : Layered R nodes) {a : α}
    (ha : a ∈ nodes) : ¬ Relation.TransGen R a a := by
  induction nodes with
  | nil => cases ha
  | cons c nodes ih =>
    by_cases hmem : a ∈ nodes
    · exact ih h.2 hmem
    · obtain rfl := (List.mem_cons.1 ha).resolve_right hmem
      intro haa
      apply hmem
      -- the first step leads into the rest, and no step leads out of it
      obtain ⟨b, hb, hba⟩ := Relation.TransGen.head'_iff.1 haa
      rcases Relation.reflTransGen_iff_eq_or_transGen.1 hba with rfl | hba
      · exact h.1 _ hb
      · exact h.2.mem_of_transGen (h.1 b hb) hba

/-- Every node behind the first of a walk is reached from the first. -/
theorem transGen_of_isChain {a : α} {walk : List α} (h : List.IsChain R (a :: walk)) {b : α}
    (hb : b ∈ walk) : Relation.TransGen R a b := by
  induction walk generalizing a with
  | nil => cases hb
  | cons c walk ih =>
    rw [List.isChain_cons_cons] at h
    rcases List.mem_cons.1 hb with rfl | hb
    · exact .single h.1
    · exact .head h.1 (ih h.2 hb)

/-- A walk from its first node back to it that passes every other node once. -/
def Circuit (R : α → α → Prop) (walk : List α) : Prop :=
  ∃ a inner, walk = a :: inner ++ [a] ∧ (a :: inner).Nodup ∧ List.IsChain R walk

/-- The first node of a circuit reaches itself. -/
theorem exists_head_transGen_of_circuit {walk : List α} (h : Circuit R walk) :
    ∃ a, walk.head? = some a ∧ Relation.TransGen R a a := by
  obtain ⟨a, inner, rfl, -, hchain⟩ := h
  exact ⟨a, rfl, transGen_of_isChain hchain (by simp)⟩

/-- Every node of a circuit reaches itself. -/
theorem Circuit.transGen_self {walk : List α} (h : Circuit R walk) {b : α} (hb : b ∈ walk) :
    Relation.TransGen R b b := by
  obtain ⟨a, inner, rfl, -, hchain⟩ := h
  have hself : Relation.TransGen R a a := transGen_of_isChain hchain (by simp)
  by_cases hab : b = a
  · exact hab ▸ hself
  have hinner : b ∈ inner := by simpa [hab] using hb
  obtain ⟨front, behind, rfl⟩ := List.append_of_mem hinner
  -- the rest of the circuit behind the node leads to the first one again
  rw [List.cons_append, List.append_assoc, List.cons_append, ← List.cons_append] at hchain
  have hthere : Relation.TransGen R b a :=
    transGen_of_isChain (List.isChain_append.1 hchain).2.1 (by simp)
  exact hthere.trans (transGen_of_isChain hchain (by simp))

/-- A circuit whose nodes all have a property is one of the steps to such nodes. -/
theorem Circuit.and {P : α → Prop} {walk : List α} (h : Circuit R walk) (hP : ∀ b ∈ walk, P b) :
    Circuit (fun a b => R a b ∧ P b) walk := by
  obtain ⟨a, inner, rfl, hnodup, hchain⟩ := h
  exact ⟨a, inner, rfl, hnodup,
    hchain.imp_of_mem_imp fun b c _ hc hbc => ⟨hbc, hP c hc⟩⟩

end Beamline.Reach

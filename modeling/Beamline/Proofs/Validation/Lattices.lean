import Beamline.Proofs.Table
import Beamline.Proofs.Validation.Cycles
import Beamline.Proofs.Validation.Finding
import Beamline.Proofs.Validation.References

/-!
# Which entries of lattices are passed

* `mem_itemListNames_iff` : the search for names meets what occurs at any depth;
* `passes_latticeFindings`, `passes_nameFindings`, `passes_rootFindings` : the entry of a lattice,
  the names in it and the root are passed if they are well formed;
* `passes_cycleFindings` : cycles are passed if there are none;
* `cycleFindings_cover` : which cycles are reported, and that they are enough of them.
-/

namespace Beamline.Validation

/-! ## What occurs in a list of items -/

theorem not_occurs_nil {v : Json} : ¬ Occurs v [] := by
  rintro (h | h)
  · cases h
  · cases h

theorem occurs_cons_iff {v w : Json} {items : List Json} : Occurs v (w :: items) ↔
    v = w ∨ (∃ inner, w = .arr inner ∧ Occurs v inner) ∨ Occurs v items := by
  constructor
  · rintro (h | ⟨h, hv⟩)
    · exact (List.mem_cons.1 h).imp id fun h => .inr (.here h)
    · rcases List.mem_cons.1 h with h | h
      · exact .inr (.inl ⟨_, h.symm, hv⟩)
      · exact .inr (.inr (.inside h hv))
  · rintro (rfl | ⟨inner, rfl, hv⟩ | (h | ⟨h, hv⟩))
    · exact .here List.mem_cons_self
    · exact .inside List.mem_cons_self hv
    · exact .here (List.mem_cons_of_mem _ h)
    · exact .inside (List.mem_cons_of_mem _ h) hv

mutual

theorem mem_itemNames_iff {s : String} : ∀ w : Json,
    s ∈ itemNames w ↔ .str s = w ∨ ∃ items, w = .arr items ∧ Occurs (.str s) items
  | .arr items => by
    rw [itemNames, mem_itemListNames_iff items]
    simp
  | .str t => by simp [itemNames]
  | .null | .bool _ | .num _ | .obj _ => by simp [itemNames]

/-- The names of a list of items are the strings that occur in it. -/
theorem mem_itemListNames_iff {s : String} : ∀ items : List Json,
    s ∈ itemListNames items ↔ Occurs (.str s) items
  | [] => by simp [itemListNames, not_occurs_nil]
  | w :: items => by
    rw [occurs_cons_iff, itemListNames, List.mem_append, mem_itemNames_iff w,
      mem_itemListNames_iff items, or_assoc]

end

theorem arr_of_items? {v : Json} {items : List Json} (h : v.items? = some items) :
    v = .arr items := by
  cases v with
  | arr items' => rw [Option.some.inj h]
  | _ => cases h

/-! ## The items of a lattice -/

variable {lenient : Bool} {nesting : Nesting} {isElement isLattice : String → Bool} {name : String}
  {entry : Json}

theorem allowsNamed_iff : nesting.allowsNamed = false ↔ nesting = .inline := by
  cases nesting <;> decide

theorem allowsInline_iff : nesting.allowsInline = false ↔ nesting = .named := by
  cases nesting <;> decide

/-- Nothing is wrong with an item if it is a name or a group that the policy allows. -/
theorem itemComplaint?_eq_none_iff {item : Json} : itemComplaint? nesting isLattice item = none ↔
    ((∃ s, item = .str s) ∨ ∃ inner, item = .arr inner ∧ inner ≠ []) ∧
      (nesting = .inline → ∀ s, item = .str s → ¬ isLattice s) ∧
      (nesting = .named → ∀ inner, item ≠ .arr inner) := by
  rw [← allowsNamed_iff, ← allowsInline_iff]
  cases item with
  | str s =>
    rw [itemComplaint?]
    split
    · rename_i h
      rw [Bool.and_eq_true, Bool.not_eq_true'] at h
      exact ⟨fun h => (by cases h), fun hs => absurd h.2 (hs.2.1 h.1 s rfl)⟩
    · rename_i h
      rw [Bool.and_eq_true, Bool.not_eq_true', not_and] at h
      refine ⟨fun _ => ⟨.inl ⟨s, rfl⟩, fun hn t ht => ?_, fun _ inner ht => by cases ht⟩,
        fun _ => rfl⟩
      cases ht
      exact h hn
  | arr inner =>
    rw [itemComplaint?]
    split
    · rename_i h
      rw [Bool.not_eq_true'] at h
      exact ⟨fun h => (by cases h), fun hs => absurd rfl (hs.2.2 h inner)⟩
    split
    · rename_i h
      rw [List.isEmpty_iff] at h
      refine ⟨fun h => (by cases h), fun hs => ?_⟩
      rcases hs.1 with ⟨s, hs⟩ | ⟨inner', heq, hne⟩
      · cases hs
      · cases heq
        exact absurd h hne
    · rename_i hinline hempty
      rw [Bool.not_eq_true'] at hinline
      rw [List.isEmpty_iff] at hempty
      exact ⟨fun _ => ⟨.inr ⟨inner, rfl, hempty⟩, fun _ s hs => (by cases hs),
        fun hn => absurd hn hinline⟩, fun _ => rfl⟩
  | _ =>
    refine ⟨fun h => (by cases h), fun h => ?_⟩
    rcases h.1 with ⟨s, hs⟩ | ⟨inner, hi, -⟩
    · cases hs
    · cases hi

theorem itemComplaint?_isUnknown {item : Json} {c : Complaint}
    (h : itemComplaint? nesting isLattice item = some c) : c.isUnknown = false := by
  unfold itemComplaint? at h
  split at h
  · split at h
    · cases h
      rfl
    · cases h
  · split at h
    · cases h
      rfl
    split at h
    · cases h
      rfl
    · cases h
  · cases h
    rfl

theorem passes_items {place : Pointer} {items : List Json} :
    Passes lenient ((walk place items).filterMap fun (spot, item) =>
      (itemComplaint? nesting isLattice item).map fun c => ⟨spot, c⟩) ↔
      WellFormedItems nesting (isLattice ·) items := by
  have hnone : Passes lenient ((walk place items).filterMap fun (spot, item) =>
      (itemComplaint? nesting isLattice item).map fun c => ⟨spot, c⟩) ↔
      ∀ v, Occurs v items → itemComplaint? nesting isLattice v = none := by
    rw [passes_filterMap]
    constructor
    · intro h v hv
      obtain ⟨spot, hspot⟩ := (exists_mem_walk_iff place).2 hv
      cases hc : itemComplaint? nesting isLattice v with
      | none => rfl
      | some c =>
        have := (h _ hspot ⟨spot, c⟩ (by simp [hc])).2
        rw [itemComplaint?_isUnknown hc] at this
        cases this
    · rintro h ⟨spot, v⟩ hspot g hg
      dsimp only at hg
      rw [h v ((exists_mem_walk_iff _).1 ⟨spot, hspot⟩)] at hg
      cases hg
  rw [hnone]
  simp only [itemComplaint?_eq_none_iff]
  constructor
  · intro h
    exact ⟨fun v hv => (h v hv).1, fun hn s hs => (h _ hs).2.1 hn s rfl,
      fun hn inner hi => (h _ hi).2.2 hn inner rfl⟩
  · intro h v hv
    exact ⟨h.form v hv, fun hn s hs => h.named hn s (hs ▸ hv),
      fun hn inner hi => h.inline hn inner (hi ▸ hv)⟩

/-- The entry of a lattice is passed if it is well formed. -/
theorem passes_latticeFindings : Passes lenient (latticeFindings nesting isLattice name entry) ↔
    WellFormedLattice nesting (isLattice ·) name entry := by
  unfold latticeFindings
  dsimp only
  rw [passes_append]
  have hname : Passes lenient (if name.isEmpty then
      [⟨["lattices", name], .namelessLattice⟩] else []) ↔ name ≠ "" := by
    split
    · rename_i hempty
      simpa [Complaint.isUnknown] using hempty
    · rename_i hempty
      simpa using hempty
  suffices hentry : _ ↔ ∃ items, entry = .arr items ∧
      WellFormedItems nesting (isLattice ·) items from
    (and_congr hname hentry).trans ⟨fun h => ⟨h.1, h.2⟩, fun h => ⟨h.named, h.items⟩⟩
  cases hitems : entry.items? with
  | none =>
    constructor
    · exact fun h => absurd (passes_singleton.1 h).2 Bool.false_ne_true
    · rintro ⟨items, rfl, -⟩
      cases hitems
  | some items =>
    obtain rfl := arr_of_items? hitems
    refine passes_items.trans ⟨fun h => ⟨items, rfl, h⟩, ?_⟩
    rintro ⟨items', heq, h⟩
    cases heq
    exact h

/-- The names in the entry of a lattice are passed if all are defined and none is an element's. -/
theorem passes_nameFindings : Passes lenient (nameFindings isElement isLattice name entry) ↔
    ¬ isElement name ∧ ∀ items, entry = .arr items → ∀ s, Occurs (.str s) items →
      isElement s ∨ isLattice s := by
  unfold nameFindings
  dsimp only
  rw [passes_append]
  refine and_congr ?_ ?_
  · split
    · rename_i h
      simp [Complaint.isUnknown, h]
    · rename_i h
      simpa using h
  · rw [passes_filterMap]
    constructor
    · rintro h items rfl s hs
      obtain ⟨spot, hspot⟩ := (exists_mem_walk_iff ["lattices", name]).2 hs
      by_contra hno
      have := h (spot, .str s) hspot ⟨spot, .undefinedName s name⟩ (by
        simp only [Json.text?, Option.bind_some]
        rw [if_neg]
        simpa using hno)
      exact absurd this.2 Bool.false_ne_true
    · rintro h ⟨spot, v⟩ hspot g hg
      exfalso
      obtain ⟨s, hs, hg⟩ := Option.bind_eq_some_iff.1 hg
      obtain rfl := text?_eq_some_iff.1 hs
      split at hg
      · cases hg
      · rename_i hno
        apply hno
        rw [Bool.or_eq_true]
        cases hitems : entry.items? with
        | none =>
          rw [hitems] at hspot
          cases hspot
        | some items =>
          rw [hitems] at hspot
          exact h items (arr_of_items? hitems) s ((exists_mem_walk_iff _).1 ⟨spot, hspot⟩)

theorem passes_rootFindings {root : Option Json} :
    Passes lenient (rootFindings isElement isLattice root) ↔
      ∀ s, root = some (.str s) → isLattice s := by
  unfold rootFindings
  cases hroot : root.bind Json.text? with
  | none =>
    refine ⟨fun _ s hs => ?_, fun _ => passes_nil⟩
    rw [hs] at hroot
    cases hroot
  | some s =>
    obtain ⟨v, rfl, hv⟩ := Option.bind_eq_some_iff.1 hroot
    obtain rfl := text?_eq_some_iff.1 hv
    dsimp only
    split
    · rename_i h
      refine ⟨fun _ t ht => ?_, fun _ => passes_nil⟩
      cases ht
      exact h
    · rename_i h
      have hno : ¬ ∀ t, some (Json.str s) = some (.str t) → isLattice t :=
        fun hall => h (hall s rfl)
      split <;> exact ⟨fun h => absurd (passes_singleton.1 h).2 Bool.false_ne_true,
        fun hall => absurd hall hno⟩

/-! ## Cycles -/

variable {lattices : List (String × Json)}

/-- The names that a search follows are the lattices that a lattice mentions. -/
theorem mem_mentions_iff {a b : String} : b ∈ mentions lattices a ↔ Nests lattices a b := by
  unfold mentions Nests
  constructor
  · intro h
    split at h
    · cases h
    · rename_i items hitems
      obtain ⟨entry, hentry, hitems⟩ := Option.bind_eq_some_iff.1 hitems
      rw [List.mem_filter, mem_itemListNames_iff, Table.has_iff] at h
      exact ⟨items, by rw [hentry, arr_of_items? hitems], h⟩
  · rintro ⟨items, hlookup, hoccurs, hmem⟩
    rw [hlookup]
    change b ∈ (itemListNames items).filter (Table.has lattices)
    rw [List.mem_filter, mem_itemListNames_iff, Table.has_iff]
    exact ⟨hoccurs, hmem⟩

theorem mem_keys_of_nests {a b : String} (h : Nests lattices a b) : a ∈ Table.keys lattices := by
  obtain ⟨items, hlookup, -⟩ := h
  rw [← Table.lookup_isSome, hlookup]
  rfl

/-- The search walks along the nesting of the lattices. -/
theorem mentions_eq_nests : (fun a b => b ∈ mentions lattices a) = Nests lattices := by
  funext a b
  exact propext mem_mentions_iff

theorem mem_keys_of_mem_mentions (a : String) : ∀ b ∈ mentions lattices a,
    b ∈ Table.keys lattices := by
  intro b hb
  obtain ⟨items, -, -, hmem⟩ := mem_mentions_iff.1 hb
  exact hmem

theorem mem_keys_of_mentions_ne_nil (a : String) (ha : mentions lattices a ≠ []) :
    a ∈ Table.keys lattices := by
  obtain ⟨b, hb⟩ := List.exists_mem_of_ne_nil _ ha
  exact mem_keys_of_nests (mem_mentions_iff.1 hb)

theorem cycleFindings_eq_nil_iff : cycleFindings lattices = [] ↔
    ∀ name, ¬ Relation.TransGen (Nests lattices) name name := by
  rw [cycleFindings, List.map_eq_nil_iff,
    search_eq_nil_iff mem_keys_of_mem_mentions mem_keys_of_mentions_ne_nil, mentions_eq_nests]

/-- Cycles are passed if no lattice is nested in itself. -/
theorem passes_cycleFindings : Passes lenient (cycleFindings lattices) ↔
    ∀ name, ¬ Relation.TransGen (Nests lattices) name name := by
  rw [← cycleFindings_eq_nil_iff]
  constructor
  · intro h
    rw [List.eq_nil_iff_forall_not_mem]
    intro f hf
    obtain ⟨cycle, -, rfl⟩ := List.mem_map.1 hf
    exact absurd (h _ hf).2 Bool.false_ne_true
  · intro h
    rw [h]
    exact passes_nil

theorem mem_map_report_cycleFindings {x : Violation} :
    x ∈ (cycleFindings lattices).map (Finding.report lenient) ↔
      ∃ cycle ∈ search (mentions lattices) (Table.keys lattices),
        x = Finding.report lenient ⟨["lattices", cycle.headD ""], .cyclic cycle⟩ := by
  simp only [cycleFindings, List.map_map, List.mem_map, Function.comp_apply, eq_comm]

/-- What is said about cycles. Every report shows lattices that mention one another in a circle,
and points at the first of them; when the last step of every report is left out, no lattice is
nested in itself any more; and so there is a report if and only if some lattice is. -/
theorem cycleFindings_cover (lenient : Bool) (lattices : List (String × Json)) :
    (∀ x ∈ (cycleFindings lattices).map (Finding.report lenient), ∃ first inner,
      x.rule = .cycle (first :: inner ++ [first]) ∧ x.severity = .error ∧
        x.path = Pointer.text ["lattices", first] ∧ (first :: inner).Nodup ∧
        List.IsChain (Nests lattices) (first :: inner ++ [first])) ∧
    (∀ name, ¬ Relation.TransGen (fun a b => Nests lattices a b ∧
      ¬ ∃ x ∈ (cycleFindings lattices).map (Finding.report lenient), ∃ names,
        x.rule = .cycle names ∧ [a, b] <:+ names) name name) ∧
    ((cycleFindings lattices).map (Finding.report lenient) ≠ [] ↔
      ∃ name, Relation.TransGen (Nests lattices) name name) := by
  refine ⟨fun x hx => ?_, fun name hname => ?_, ?_⟩
  · obtain ⟨cycle, hcycle, rfl⟩ := mem_map_report_cycleFindings.1 hx
    obtain ⟨first, inner, rfl, hnodup, hchain⟩ :=
      circuit_of_mem_search mem_keys_of_mem_mentions hcycle
    rw [mentions_eq_nests] at hchain
    exact ⟨first, inner, rfl, by cases lenient <;> rfl, rfl, hnodup, hchain⟩
  · -- a step that no report ends with is one that the search has not cut
    have huncut : ∀ a b, (Nests lattices a b ∧
        ¬ ∃ x ∈ (cycleFindings lattices).map (Finding.report lenient), ∃ names,
          x.rule = .cycle names ∧ [a, b] <:+ names) →
        Uncut (mentions lattices) (search (mentions lattices) (Table.keys lattices)) a b := by
      rintro a b ⟨hab, hreport⟩
      refine ⟨mem_mentions_iff.2 hab, ?_⟩
      rintro ⟨cycle, hcycle, hend⟩
      exact hreport ⟨_, mem_map_report_cycleFindings.2 ⟨cycle, hcycle, rfl⟩, cycle, rfl, hend⟩
    exact not_transGen_uncut mem_keys_of_mem_mentions mem_keys_of_mentions_ne_nil name
      (Relation.TransGen.mono huncut _ _ hname)
  · rw [ne_eq, List.map_eq_nil_iff, cycleFindings_eq_nil_iff]
    push Not
    rfl

end Beamline.Validation

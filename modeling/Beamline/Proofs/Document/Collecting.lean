import Beamline.Proofs.Document.Builder
import Beamline.Proofs.Document.Rejection

/-!
# What a builder collects

* `Builder.Call`, `Builder.run` : the calls that a builder takes, and what a sequence of them makes
  of the empty builder;
* `Builder.given` : the document of the parts that a sequence of calls gives;
* `Builder.repetitions` : what is held against the calls that give a name once more;
* `Builder.Collects` : what a builder holds after a sequence of calls, kept by every further call;
* `Builder.build_run` : which sequences of calls build a document and which one it is, and what is
  said of the others if names came twice.
-/

namespace Beamline

namespace Builder

/-! ## Calls -/

/-- What can be asked of a builder. -/
inductive Call where
  | title (s : String)
  | info (s : String)
  | root (s : String)
  | element (e : Element)
  | lattice (l : Lattice)

namespace Call

def title? : Call → Option String
  | title s => some s
  | _ => none

def info? : Call → Option String
  | info s => some s
  | _ => none

def root? : Call → Option String
  | root s => some s
  | _ => none

def element? : Call → Option Element
  | element e => some e
  | _ => none

def lattice? : Call → Option Lattice
  | lattice l => some l
  | _ => none

end Call

def call (b : Builder) : Call → Builder
  | .title s => b.title s
  | .info s => b.info s
  | .root s => b.root s
  | .element e => b.element e
  | .lattice l => b.lattice l

/-- The builder after a sequence of calls. -/
def run (calls : List Call) : Builder :=
  calls.foldl call empty

theorem run_append_singleton (calls : List Call) (c : Call) :
    run (calls ++ [c]) = (run calls).call c := by
  simp [run]

theorem Reachable.call {b : Builder} (h : b.Reachable) (c : Call) : (b.call c).Reachable := by
  cases c with
  | title s => exact h.title s
  | info s => exact h.info s
  | root s => exact h.root s
  | element e => exact h.element e
  | lattice l => exact h.lattice l

theorem reachable_run (calls : List Call) : (run calls).Reachable :=
  Reachable.foldl (fun _ c h => h.call c) calls empty .empty

/-! ## What is given -/

/-- All elements and lattices that calls give, in the order of the calls, under the last title, the
last remark and the last root. -/
def given (calls : List Call) : Document where
  version := .current
  title := (calls.filterMap Call.title?).getLast?
  info := (calls.filterMap Call.info?).getLast?
  root := (calls.filterMap Call.root?).getLast?
  elements := calls.filterMap Call.element?
  lattices := calls.filterMap Call.lattice?
  extras := []

section AppendSingleton

variable (calls : List Call)

theorem given_append_title (s : String) :
    given (calls ++ [.title s]) = { given calls with title := some s } := by
  simp [given, Call.info?, Call.root?, Call.element?, Call.lattice?, Call.title?]

theorem given_append_info (s : String) :
    given (calls ++ [.info s]) = { given calls with info := some s } := by
  simp [given, Call.info?, Call.root?, Call.element?, Call.lattice?, Call.title?]

theorem given_append_root (s : String) :
    given (calls ++ [.root s]) = { given calls with root := some s } := by
  simp [given, Call.info?, Call.root?, Call.element?, Call.lattice?, Call.title?]

theorem given_append_element (e : Element) : given (calls ++ [.element e]) =
    { given calls with elements := (given calls).elements ++ [e] } := by
  simp [given, Call.info?, Call.root?, Call.element?, Call.lattice?, Call.title?]

theorem given_append_lattice (l : Lattice) : given (calls ++ [.lattice l]) =
    { given calls with lattices := (given calls).lattices ++ [l] } := by
  simp [given, Call.info?, Call.root?, Call.element?, Call.lattice?, Call.title?]

end AppendSingleton

/-! ## Names that are given again -/

/-- What is held against a call that gives an element or a lattice the name of one that was given
before. -/
def repetition? (before : Document) : Call → Option Violation
  | .element e =>
    if e.name ∈ before.elements.map (·.name) then some (repetition "elements" "element" e.name)
    else none
  | .lattice l =>
    if l.name ∈ before.lattices.map (·.name) then some (repetition "lattices" "lattice" l.name)
    else none
  | _ => none

/-- What is held against the calls, each against those before it, in their order. -/
def repetitions (calls : List Call) : List Violation :=
  (List.range calls.length).filterMap fun i => calls[i]?.bind (repetition? (given (calls.take i)))

theorem repetitions_append_singleton (calls : List Call) (c : Call) :
    repetitions (calls ++ [c]) = repetitions calls ++ (repetition? (given calls) c).toList := by
  unfold repetitions
  rw [List.length_append, List.length_singleton, List.range_succ, List.filterMap_append]
  congr 1
  · refine List.filterMap_congr fun i hi => ?_
    have hlt := List.mem_range.1 hi
    rw [List.getElem?_append_left hlt, List.take_append_of_le_length hlt.le]
  · cases hc : repetition? (given calls) c <;> simp [hc]

theorem nodup_append_singleton_iff {names : List String} {name : String} :
    (names ++ [name]).Nodup ↔ name ∉ names ∧ names.Nodup := by
  rw [List.nodup_append_comm, List.singleton_append, List.nodup_cons]

/-- Nothing is held against calls that give every element and every lattice a name of its own. -/
theorem repetitions_eq_nil_iff (calls : List Call) : repetitions calls = [] ↔
    ((given calls).elements.map (·.name)).Nodup ∧ ((given calls).lattices.map (·.name)).Nodup := by
  induction calls using List.reverseRecOn with
  | nil => simp [repetitions, given]
  | append_singleton calls c ih =>
    rw [repetitions_append_singleton, List.append_eq_nil_iff, ih]
    cases c with
    | title s => simp [repetition?, given_append_title]
    | info s => simp [repetition?, given_append_info]
    | root s => simp [repetition?, given_append_root]
    | element e =>
      rw [given_append_element, List.map_append, List.map_singleton, nodup_append_singleton_iff]
      by_cases he : e.name ∈ (given calls).elements.map (·.name)
      · simp [repetition?, he]
      · simp [repetition?, he]
    | lattice l =>
      rw [given_append_lattice, List.map_append, List.map_singleton, nodup_append_singleton_iff]
      by_cases hl : l.name ∈ (given calls).lattices.map (·.name)
      · simp [repetition?, hl]
      · simp [repetition?, hl]

/-! ## What is collected -/

/-- Of the entries that are given, those are held that are the first of their name. -/
structure Holds {α : Type} (name : α → String) (given held : List α) : Prop where
  names : ∀ s, s ∈ held.map name ↔ s ∈ given.map name
  all : (given.map name).Nodup → held = given

namespace Holds

variable {α : Type} {name : α → String} {given held : List α} {x : α}

/-- An entry whose name is there already is left out. -/
theorem leave (h : Holds name given held) (hx : name x ∈ given.map name) :
    Holds name (given ++ [x]) held := by
  refine ⟨fun s => ?_, fun hnodup => ?_⟩
  · rw [h.names, List.map_append, List.mem_append, List.map_singleton, List.mem_singleton]
    exact ⟨.inl, fun hs => hs.elim id fun hs => hs ▸ hx⟩
  · rw [List.map_append] at hnodup
    exact absurd hx (notMem_of_nodup hnodup)

/-- An entry with a new name is taken. -/
theorem take (h : Holds name given held) : Holds name (given ++ [x]) (held ++ [x]) := by
  refine ⟨fun s => ?_, fun hnodup => ?_⟩
  · rw [List.map_append, List.map_append, List.mem_append, List.mem_append, h.names]
  · rw [List.map_append] at hnodup
    rw [h.all hnodup.of_append_left]

/-- The held entries have the name of an entry just if the given ones have. -/
theorem isSome_find? (h : Holds name given held) :
    (held.find? (name · == name x)).isSome = true ↔ name x ∈ given.map name := by
  rw [Option.isSome_iff_ne_none, ne_eq, find?_eq_none_iff, not_not, h.names]

end Holds

/-- A builder holds the head of the document `g` that was given, the first entries of every name,
and `vs` against the others. -/
structure Collects (g : Document) (vs : List Violation) (b : Builder) : Prop where
  title : b.document.title = g.title
  info : b.document.info = g.info
  root : b.document.root = g.root
  elements : Holds (·.name) g.elements b.document.elements
  lattices : Holds (·.name) g.lattices b.document.lattices
  repeated : b.repeated = vs

namespace Collects

variable {g : Document} {vs : List Violation} {b : Builder}

theorem element (h : Collects g vs b) (e : Element) :
    Collects { g with elements := g.elements ++ [e] }
      (vs ++ (repetition? g (.element e)).toList) (b.element e) := by
  have hheld : (b.document.element? e.name).isSome = true ↔ e.name ∈ g.elements.map (·.name) :=
    h.elements.isSome_find?
  rw [Builder.element, repetition?]
  by_cases he : e.name ∈ g.elements.map (·.name)
  · rw [if_pos (hheld.2 he), if_pos he]
    exact { h with elements := h.elements.leave he, repeated := by rw [h.repeated]; rfl }
  · rw [if_neg (mt hheld.1 he), if_neg he]
    exact { h with elements := h.elements.take, repeated := by rw [h.repeated]; simp }

theorem lattice (h : Collects g vs b) (l : Lattice) :
    Collects { g with lattices := g.lattices ++ [l] }
      (vs ++ (repetition? g (.lattice l)).toList) (b.lattice l) := by
  have hheld : (b.document.lattice? l.name).isSome = true ↔ l.name ∈ g.lattices.map (·.name) :=
    h.lattices.isSome_find?
  rw [Builder.lattice, repetition?]
  by_cases hl : l.name ∈ g.lattices.map (·.name)
  · rw [if_pos (hheld.2 hl), if_pos hl]
    exact { h with lattices := h.lattices.leave hl, repeated := by rw [h.repeated]; rfl }
  · rw [if_neg (mt hheld.1 hl), if_neg hl]
    exact { h with lattices := h.lattices.take, repeated := by rw [h.repeated]; simp }

/-- Every call keeps what a builder holds in step with what was given. -/
theorem call {calls : List Call} (h : Collects (given calls) vs b) (c : Call) :
    Collects (given (calls ++ [c])) (vs ++ (repetition? (given calls) c).toList) (b.call c) := by
  cases c with
  | title s =>
    rw [given_append_title]
    exact { h with title := rfl, repeated := by rw [← h.repeated]; exact (List.append_nil _).symm }
  | info s =>
    rw [given_append_info]
    exact { h with info := rfl, repeated := by rw [← h.repeated]; exact (List.append_nil _).symm }
  | root s =>
    rw [given_append_root]
    exact { h with root := rfl, repeated := by rw [← h.repeated]; exact (List.append_nil _).symm }
  | element e =>
    rw [given_append_element]
    exact h.element e
  | lattice l =>
    rw [given_append_lattice]
    exact h.lattice l

end Collects

/-- After any sequence of calls a builder holds what was given. -/
theorem collects_run (calls : List Call) :
    Collects (given calls) (repetitions calls) (run calls) := by
  induction calls using List.reverseRecOn with
  | nil =>
    exact ⟨rfl, rfl, rfl, ⟨fun _ => Iff.rfl, fun _ => rfl⟩, ⟨fun _ => Iff.rfl, fun _ => rfl⟩, rfl⟩
  | append_singleton calls c ih =>
    rw [run_append_singleton, repetitions_append_singleton]
    exact ih.call c

/-- A builder has collected all that was given if no name came twice. -/
theorem document_run {calls : List Call} (h : repetitions calls = []) :
    (run calls).document = given calls := by
  obtain ⟨helements, hlattices⟩ := (repetitions_eq_nil_iff calls).1 h
  have hcollects := collects_run calls
  have hversion := (reachable_run calls).version_eq
  have hextras := (reachable_run calls).extras_eq
  have htitle := hcollects.title
  have hinfo := hcollects.info
  have hroot := hcollects.root
  have hes := hcollects.elements.all helements
  have hls := hcollects.lattices.all hlattices
  generalize (run calls).document = d at hversion hextras htitle hinfo hroot hes hls
  obtain ⟨version, title, info, root, elements, lattices, extras⟩ := d
  dsimp only at hversion hextras htitle hinfo hroot hes hls
  subst hversion hextras htitle hinfo hroot hes hls
  rfl

/-! ## Building -/

/-- A repeated name breaks a rule about the shape of a document. -/
theorem rule_of_mem_repetitions {calls : List Call} {v : Violation} (h : v ∈ repetitions calls) :
    v.rule = .shape := by
  obtain ⟨i, -, hi⟩ := List.mem_filterMap.1 h
  obtain ⟨c, -, hc⟩ := Option.bind_eq_some_iff.1 hi
  unfold repetition? at hc
  split at hc
  · split at hc <;> cases hc
    rfl
  · split at hc <;> cases hc
    rfl
  · cases hc

/-- A builder that was given a name twice says so and nothing else. -/
theorem build_run_eq_error {calls : List Call} (h : repetitions calls ≠ []) :
    (run calls).build = .error (.validation (repetitions calls)) := by
  obtain ⟨v, hv⟩ := List.exists_mem_of_ne_nil _ h
  have hstructural : ∃ x ∈ repetitions calls, x.rule.isStructural = true :=
    ⟨v, hv, by rw [rule_of_mem_repetitions hv]; rfl⟩
  have hempty : (run calls).repeated.isEmpty = false := by
    rw [(collects_run calls).repeated]
    exact List.isEmpty_eq_false_iff.2 h
  rw [← Error.ofViolations_eq_validation hstructural, ← (collects_run calls).repeated]
  unfold build
  rw [hempty]
  rfl

/-- A builder builds the document of all that was given just if that keeps the rules. -/
theorem build_run_eq_ok_iff {calls : List Call} {d : Document} :
    (run calls).build = .ok d ↔ (given calls).Lawful ∧ d = given calls := by
  constructor
  · intro h
    obtain ⟨hrepeated, -, hd⟩ := build_eq_ok_iff.1 h
    rw [(collects_run calls).repeated] at hrepeated
    rw [document_run hrepeated] at hd
    exact ⟨hd ▸ Document.lawful_of_validated (.built (reachable_run calls) h), hd⟩
  · rintro ⟨hlawful, rfl⟩
    have hnone : repetitions calls = [] :=
      (repetitions_eq_nil_iff calls).2 ⟨hlawful.elementNames, hlawful.latticeNames⟩
    have hmeets : (given calls).Meets .standard := ⟨.inr (.inr rfl), nofun, nofun⟩
    have hdocument := document_run hnone
    refine build_eq_ok_iff.2 ⟨(collects_run calls).repeated.trans hnone, ?_, hdocument.symm⟩
    rw [hdocument]
    exact Document.wellFormed_toJson hlawful hmeets

/-- A builder builds a document after exactly those sequences of calls that give a lawful one: all
elements and lattices have names of their own that are not empty, all numbers are finite, no length
is negative, no group is empty, all names are defined, the root is a lattice and no lattice holds
itself. The document is the one that was given. If an element or a lattice was given a name twice,
building fails with one complaint for each call that repeats a name, in the order of the calls, and
with no other. -/
theorem build_run (calls : List Call) :
    (∀ d, (run calls).build = .ok d ↔ (given calls).Lawful ∧ d = given calls) ∧
    (¬ (((given calls).elements.map (·.name)).Nodup ∧ ((given calls).lattices.map (·.name)).Nodup) →
      (run calls).build = .error (.validation (repetitions calls)) ∧
        ∀ v ∈ repetitions calls, v.rule = .shape) := by
  refine ⟨fun d => build_run_eq_ok_iff, fun h => ?_⟩
  rw [← repetitions_eq_nil_iff] at h
  exact ⟨build_run_eq_error h, fun v => rule_of_mem_repetitions⟩

/-- A name that an element and a lattice share is no repetition, a second element of it is. -/
example (body : Body) : repetitions
    [.element ⟨"D", none, body⟩, .lattice ⟨"D", []⟩, .title "T", .element ⟨"D", none, .marker⟩] =
      [repetition "elements" "element" "D"] :=
  rfl

end Builder

end Beamline

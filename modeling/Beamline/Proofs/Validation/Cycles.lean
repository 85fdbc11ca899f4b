import Beamline.Proofs.Reach
import Mathlib.Data.List.Nodup
import Mathlib.Data.List.Perm.Subperm
import Beamline.Validation.Cycles

/-!
# The search for cycles

* `follow`, `follow_cases` : what the search does at one child of the last name of its trail;
* `Closes`, `Uncut` : the steps to a child that end a reported cycle, and those that do not;
* `Sound` : the invariant of the search. What it reports are circuits, and whatever a finished name
  leads to by an uncut step was finished before it;
* `visit_spec` : a visit keeps the invariant and finishes the name;
* `circuit_of_mem_search` : what the search reports are circuits;
* `not_transGen_uncut` : no name reaches itself by uncut steps;
* `search_eq_nil_iff` : nothing is reported if and only if no name reaches itself.

A visit has room to spare because the names on the path are distinct.
-/

namespace Beamline.Validation

open Reach

/-- One of the cycles ends with the step from `a` to `b`. -/
def Closes (cycles : List (List String)) (a b : String) : Prop :=
  ∃ cycle ∈ cycles, [a, b] <:+ cycle

/-- A step from a name to a child that ends none of the cycles. -/
def Uncut (children : String → List String) (cycles : List (List String)) (a b : String) : Prop :=
  b ∈ children a ∧ ¬ Closes cycles a b

/-- The invariant of the search. -/
structure Sound (children : String → List String) (s : Search) : Prop where
  layered : Layered (Uncut children s.cycles) s.done
  circuits : ∀ cycle ∈ s.cycles, Circuit (fun a b => b ∈ children a) cycle

/-- A later state of a search. -/
structure Extends (s s' : Search) : Prop where
  done : s.done ⊆ s'.done
  cycles : s.cycles <+: s'.cycles

theorem Extends.refl (s : Search) : Extends s s :=
  ⟨List.Subset.refl _, List.prefix_rfl⟩

theorem Extends.trans {s t u : Search} (h : Extends s t) (h' : Extends t u) : Extends s u :=
  ⟨List.Subset.trans h.done h'.done, h.cycles.trans h'.cycles⟩

theorem Extends.closes {s s' : Search} (h : Extends s s') {a b : String}
    (hab : Closes s.cycles a b) : Closes s'.cycles a b := by
  obtain ⟨cycle, hcycle, hend⟩ := hab
  exact ⟨cycle, h.cycles.subset hcycle, hend⟩

variable {children : String → List String}

/-! ## Steps of the search -/

/-- What the search does at a child of the last name of the trail. -/
def follow (children : String → List String) (room : Nat) (trail : List String) (s : Search)
    (child : String) : Search :=
  if s.done.contains child then s
  else if trail.contains child then
    { s with cycles := s.cycles ++ [trail.dropWhile (· != child) ++ [child]] }
  else visit children room trail child s

theorem visit_succ (room : Nat) (path : List String) (name : String) (s : Search) :
    visit children (room + 1) path name s =
      { (children name).foldl (follow children room (path ++ [name])) s with
        done := name ::
          ((children name).foldl (follow children room (path ++ [name])) s).done } :=
  rfl

/-- The search follows the names one after the other, with no trail behind it. -/
theorem search_eq (children : String → List String) (names : List String) :
    search children names = (names.foldl (follow children names.length []) ⟨[], []⟩).cycles :=
  rfl

/-- A child is finished, or on the trail, or visited. -/
theorem follow_cases (children : String → List String) (room : Nat) (trail : List String)
    (s : Search) (child : String) :
    (child ∈ s.done ∧ follow children room trail s child = s) ∨
    (child ∉ s.done ∧ child ∈ trail ∧ follow children room trail s child =
      { s with cycles := s.cycles ++ [trail.dropWhile (· != child) ++ [child]] }) ∨
    (child ∉ s.done ∧ child ∉ trail ∧
      follow children room trail s child = visit children room trail child s) := by
  unfold follow
  simp only [List.contains_iff_mem]
  split_ifs with h h' <;> simp_all

theorem follow_of_fresh {room : Nat} {trail : List String} {s : Search} {child : String}
    (hdone : child ∉ s.done) (htrail : child ∉ trail) :
    follow children room trail s child = visit children room trail child s := by
  obtain h | h | h := follow_cases children room trail s child
  · exact absurd h.1 hdone
  · exact absurd h.2.1 htrail
  · exact h.2.2

/-! ## The invariant -/

/-- What a part of the search achieves: the invariant still holds, nothing is lost, and something
is `settled`. -/
structure Handles (children : String → List String) (s s' : Search) (settled : Search → Prop) :
    Prop where
  sound : Sound children s'
  later : Extends s s'
  settled : settled s'

/-- Steps that settle their names for good settle all of them one after the other. -/
theorem foldl_handles {step : Search → String → Search} {settled : String → Search → Prop}
    {nodes : List String} (hkeep : ∀ a s s', Extends s s' → settled a s → settled a s')
    (hstep : ∀ s, Sound children s → ∀ a ∈ nodes, Handles children s (step s a) (settled a)) :
    ∀ s, Sound children s →
      Handles children s (nodes.foldl step s) (fun s' => ∀ a ∈ nodes, settled a s') := by
  induction nodes with
  | nil => exact fun s hs => ⟨hs, .refl s, fun a ha => absurd ha List.not_mem_nil⟩
  | cons b nodes ih =>
    intro s hs
    have hb := hstep s hs b List.mem_cons_self
    have hrest := ih (fun s hs a ha => hstep s hs a (List.mem_cons_of_mem _ ha)) (step s b) hb.sound
    exact ⟨hrest.sound, hb.later.trans hrest.later,
      List.forall_mem_cons.2 ⟨hkeep b _ _ hrest.later hb.settled, hrest.settled⟩⟩

/-- A trail from one of its names on. -/
theorem dropWhile_of_mem {trail : List String} {child : String} (h : child ∈ trail) :
    ∃ before behind, trail = before ++ child :: behind ∧
      trail.dropWhile (· != child) = child :: behind := by
  obtain ⟨before, behind, rfl, hbefore⟩ := List.eq_append_cons_of_mem h
  refine ⟨before, behind, rfl, ?_⟩
  rw [List.dropWhile_append_of_pos, List.dropWhile_cons_of_neg (by simp)]
  intro a ha
  rw [bne_iff_ne]
  exact fun h => hbefore (h ▸ ha)

/-- The path from a name on it to its end, closed by a step back to the name, is a circuit with
that step as its last. -/
theorem circuit_of_mem_path {path : List String} {name child : String}
    (hchain : List.IsChain (fun a b => b ∈ children a) (path ++ [name]))
    (hnodup : (path ++ [name]).Nodup) (hchild : child ∈ children name)
    (hmem : child ∈ path ++ [name]) :
    Circuit (fun a b => b ∈ children a) ((path ++ [name]).dropWhile (· != child) ++ [child]) ∧
      [name, child] <:+ (path ++ [name]).dropWhile (· != child) ++ [child] := by
  obtain ⟨before, behind, hsplit, hdrop⟩ := dropWhile_of_mem hmem
  have hlast : (child :: behind).getLast? = some name := by
    have := congrArg List.getLast? hsplit
    rw [List.getLast?_concat, List.getLast?_append_of_ne_nil _ (List.cons_ne_nil _ _)] at this
    exact this.symm
  rw [hsplit] at hchain hnodup
  rw [hdrop]
  refine ⟨⟨child, behind, rfl, (List.nodup_append.1 hnodup).2.1, List.isChain_append.2
    ⟨(List.isChain_append.1 hchain).2.1, List.isChain_singleton _, fun a ha b hb => ?_⟩⟩, ?_⟩
  · rw [hlast] at ha
    cases ha
    cases hb
    exact hchild
  · obtain ⟨front, hfront⟩ := List.getLast?_eq_some_iff.1 hlast
    rw [hfront, List.append_assoc]
    exact List.suffix_append _ _

/-- A circuit may be added to what is reported. -/
theorem Sound.report {s : Search} (hs : Sound children s) {cycle : List String}
    (hcycle : Circuit (fun a b => b ∈ children a) cycle) :
    Sound children { s with cycles := s.cycles ++ [cycle] } := by
  have hlater : Extends s { s with cycles := s.cycles ++ [cycle] } :=
    ⟨List.Subset.refl _, List.prefix_append _ _⟩
  refine ⟨hs.layered.mono fun a b h => ⟨h.1, fun hab => h.2 (hlater.closes hab)⟩, fun c hc => ?_⟩
  rcases List.mem_append.1 hc with hc | hc
  · exact hs.circuits c hc
  · rw [List.mem_singleton.1 hc]
    exact hcycle

/-- A visit keeps the invariant and finishes the name. -/
theorem visit_spec {names : List String} (hnames : ∀ a, ∀ b ∈ children a, b ∈ names)
    (room : Nat) : ∀ (path : List String) (name : String) (s : Search),
      names.length ≤ room + path.length → (path ++ [name]).Nodup → path ++ [name] ⊆ names →
      List.IsChain (fun a b => b ∈ children a) (path ++ [name]) → Sound children s →
      Handles children s (visit children room path name s) (name ∈ ·.done) := by
  induction room with
  | zero =>
    intro path name s hroom hnodup hsub hchain hs
    -- the path and the name are too many distinct names
    have := (List.subperm_of_subset hnodup hsub).length_le
    rw [List.length_append, List.length_singleton] at this
    omega
  | succ room ih =>
    intro path name s hroom hnodup hsub hchain hs
    have hstep : ∀ s, Sound children s → ∀ child ∈ children name, Handles children s
        (follow children room (path ++ [name]) s child)
        (fun s' => child ∈ s'.done ∨ Closes s'.cycles name child) := by
      intro s hs child hchild
      -- the child is finished, closes a circuit, or is visited next
      obtain ⟨hdone, h⟩ | ⟨-, hpath, h⟩ | ⟨-, hpath, h⟩ :=
        follow_cases children room (path ++ [name]) s child <;> rw [h]
      · exact ⟨hs, .refl s, .inl hdone⟩
      · obtain ⟨hcircuit, hend⟩ := circuit_of_mem_path hchain hnodup hchild hpath
        exact ⟨hs.report hcircuit, ⟨List.Subset.refl _, List.prefix_append _ _⟩,
          .inr ⟨_, List.mem_append_right _ (List.mem_singleton_self _), hend⟩⟩
      · suffices h : Handles children s _ (child ∈ ·.done) from
          ⟨h.sound, h.later, .inl h.settled⟩
        apply ih _ _ _ _ _ _ _ hs
        · rw [List.length_append, List.length_singleton]
          omega
        · rw [← List.concat_eq_append, List.nodup_concat]
          exact ⟨hpath, hnodup⟩
        · refine List.append_subset.2 ⟨hsub, ?_⟩
          simpa using hnames name child hchild
        · refine List.isChain_append.2 ⟨hchain, List.isChain_singleton _, fun a ha b hb => ?_⟩
          rw [List.getLast?_concat] at ha
          cases ha
          cases hb
          exact hchild
    have hall := foldl_handles
      (fun child _ _ hlater h => h.imp (hlater.done ·) hlater.closes) hstep s hs
    -- every child is finished by now, but for those whose step ends a cycle
    exact ⟨⟨⟨fun b hb => (hall.settled b hb.1).resolve_right hb.2, hall.sound.layered⟩,
        hall.sound.circuits⟩,
      ⟨fun a ha => List.mem_cons_of_mem _ (hall.later.done ha), hall.later.cycles⟩,
      List.mem_cons_self⟩

section Search

variable {names : List String} (hnames : ∀ a, ∀ b ∈ children a, b ∈ names)
include hnames

/-- After the whole search every name is finished. -/
theorem search_spec : ∃ s : Search, search children names = s.cycles ∧ Sound children s ∧
    ∀ a ∈ names, a ∈ s.done := by
  have hstep : ∀ s, Sound children s → ∀ a ∈ names, Handles children s
      (follow children names.length [] s a) (a ∈ ·.done) := by
    intro s hs a ha
    by_cases hdone : a ∈ s.done
    · obtain ⟨-, h⟩ | ⟨hfresh, -, -⟩ | ⟨hfresh, -, -⟩ :=
        follow_cases children names.length [] s a
      · rw [h]
        exact ⟨hs, .refl s, hdone⟩
      · exact absurd hdone hfresh
      · exact absurd hdone hfresh
    · rw [follow_of_fresh hdone List.not_mem_nil]
      exact visit_spec hnames _ [] a s (by simp) (List.nodup_singleton a) (by simpa using ha)
        (List.isChain_singleton a) hs
  have hkeep : ∀ a (s s' : Search), Extends s s' → a ∈ s.done → a ∈ s'.done :=
    fun a s s' hlater h => hlater.done h
  have hall := foldl_handles hkeep hstep ⟨[], []⟩
    ⟨trivial, fun _ h => absurd h List.not_mem_nil⟩
  exact ⟨_, rfl, hall.sound, hall.settled⟩

/-- What the search reports are circuits. -/
theorem circuit_of_mem_search {cycle : List String} (h : cycle ∈ search children names) :
    Circuit (fun a b => b ∈ children a) cycle := by
  obtain ⟨s, hs, hsound, -⟩ := search_spec hnames
  exact hsound.circuits cycle (hs ▸ h)

/-- Without the last steps of the reported cycles no name reaches itself. -/
theorem not_transGen_uncut (hkeys : ∀ a, children a ≠ [] → a ∈ names) (a : String) :
    ¬ Relation.TransGen (Uncut children (search children names)) a a := by
  intro haa
  obtain ⟨s, hs, hsound, hdone⟩ := search_spec hnames
  rw [hs] at haa
  obtain ⟨b, hb, -⟩ := Relation.TransGen.head'_iff.1 haa
  have ha : a ∈ names := hkeys a (List.ne_nil_of_mem hb.1)
  exact not_transGen_self_of_layered hsound.layered (hdone a ha) haa

/-- The search reports nothing if and only if no name reaches itself. -/
theorem search_eq_nil_iff (hkeys : ∀ a, children a ≠ [] → a ∈ names) :
    search children names = [] ↔
      ∀ a, ¬ Relation.TransGen (fun a b => b ∈ children a) a a := by
  constructor
  · intro hnil a haa
    have huncut : ∀ a b, b ∈ children a → Uncut children (search children names) a b := by
      refine fun a b hb => ⟨hb, ?_⟩
      rw [hnil]
      rintro ⟨cycle, hcycle, -⟩
      cases hcycle
    exact not_transGen_uncut hnames hkeys a (Relation.TransGen.mono huncut _ _ haa)
  · intro hacyclic
    rw [List.eq_nil_iff_forall_not_mem]
    intro cycle hcycle
    obtain ⟨a, -, ha⟩ := exists_head_transGen_of_circuit (circuit_of_mem_search hnames hcycle)
    exact hacyclic a ha

end Search

end Beamline.Validation

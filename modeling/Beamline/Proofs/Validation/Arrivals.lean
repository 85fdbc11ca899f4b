import Beamline.Proofs.Validation.Lattices

/-!
# Which names the reports of cycles show

A finished name is not walked again, so of the names that lie on cycles the search shows some and
leaves out others.

* `Enters` : the search comes to a name for the first time, by a path and in a state;
* `Open` : what holds of the trail there; a visit finishes nothing on it (`mem_done_visit`);
* `Settled`, `Tied` : of all that a visit finishes, every step back to the trail is reported with
  the trail from there on;
* `Enters.mem_search`, `arises_of_mem_search` : what a visit reports is reported in the end, and
  every report comes from a visit;
* `shown_iff` : a name is shown if and only if it lies on a cycle of names none of which was
  finished when the search entered it;
* `cycleFindings_shown` : the same of the reports about lattices.
-/

namespace Beamline.Validation

open Reach

variable {children : String → List String} {names : List String} {room : Nat}
  {path trail : List String} {name child : String} {s s' t : Search}

/-! ## What grows -/

theorem foldl_extends {step : Search → String → Search} (hstep : ∀ s a, Extends s (step s a))
    (nodes : List String) : ∀ s, Extends s (nodes.foldl step s) := by
  induction nodes with
  | nil => exact Extends.refl
  | cons a nodes ih => exact fun s => (hstep s a).trans (ih (step s a))

theorem follow_extends (hvisit : ∀ path name s, Extends s (visit children room path name s))
    (trail : List String) (s : Search) (child : String) :
    Extends s (follow children room trail s child) := by
  obtain ⟨-, h⟩ | ⟨-, -, h⟩ | ⟨-, -, h⟩ := follow_cases children room trail s child <;> rw [h]
  · exact .refl s
  · exact ⟨List.Subset.refl _, List.prefix_append _ _⟩
  · exact hvisit trail child s

theorem visit_extends (room : Nat) :
    ∀ path name s, Extends s (visit children room path name s) := by
  induction room with
  | zero => exact fun path name s => .refl s
  | succ room ih =>
    intro path name s
    have h := foldl_extends (follow_extends ih (path ++ [name])) (children name) s
    exact ⟨fun a ha => List.mem_cons_of_mem _ (h.done ha), h.cycles⟩

theorem foldl_follow_extends (room : Nat) (trail nodes : List String) (s : Search) :
    Extends s (nodes.foldl (follow children room trail) s) :=
  foldl_extends (follow_extends (visit_extends room) trail) nodes s

/-- What is finished behind a trail is reached from one of the names followed, and is not on the
trail. -/
theorem mem_done_foldl_follow (hvisit : ∀ child ∉ trail, ∀ s,
      ∀ a ∈ (visit children room trail child s).done, a ∈ s.done ∨
        a ∉ trail ∧ Relation.ReflTransGen (fun a b => b ∈ children a) child a)
    (nodes : List String) : ∀ s, ∀ a ∈ (nodes.foldl (follow children room trail) s).done,
      a ∈ s.done ∨ a ∉ trail ∧
        ∃ child ∈ nodes, Relation.ReflTransGen (fun a b => b ∈ children a) child a := by
  induction nodes with
  | nil => exact fun s a ha => .inl ha
  | cons child nodes ih =>
    intro s a ha
    rcases ih (follow children room trail s child) a ha with ha | ⟨htrail, b, hb, hba⟩
    · have hstep : a ∈ s.done ∨ a ∉ trail ∧
          Relation.ReflTransGen (fun a b => b ∈ children a) child a := by
        obtain ⟨-, h⟩ | ⟨-, -, h⟩ | ⟨-, htrail, h⟩ := follow_cases children room trail s child <;>
          rw [h] at ha
        · exact .inl ha
        · exact .inl ha
        · exact hvisit child htrail s a ha
      exact hstep.imp id fun h => ⟨h.1, child, by simp, h.2⟩
    · exact .inr ⟨htrail, b, by simp [hb], hba⟩

/-- What a visit finishes is reached from its name, and is not on the path. -/
theorem mem_done_visit (room : Nat) : ∀ path, ∀ name ∉ path, ∀ s,
    ∀ a ∈ (visit children room path name s).done, a ∈ s.done ∨
      a ∉ path ∧ Relation.ReflTransGen (fun a b => b ∈ children a) name a := by
  induction room with
  | zero => exact fun path name hname s a ha => .inl ha
  | succ room ih =>
    intro path name hname s a ha
    rw [visit_succ] at ha
    rcases List.mem_cons.1 ha with rfl | ha
    · exact .inr ⟨hname, .refl⟩
    · rcases mem_done_foldl_follow (ih (path ++ [name])) (children name) s a ha with
        ha | ⟨htrail, child, hchild, hreach⟩
      · exact .inl ha
      · exact .inr ⟨fun h => htrail (List.mem_append_left _ h), .head hchild hreach⟩

theorem not_mem_done_foldl_follow (hfresh : ∀ a ∈ trail, a ∉ s.done) (nodes : List String) :
    ∀ a ∈ trail, a ∉ (nodes.foldl (follow children room trail) s).done := by
  intro a ha hdone
  rcases mem_done_foldl_follow (mem_done_visit room trail) nodes s a hdone with h | h
  · exact hfresh a ha h
  · exact h.1 ha

/-! ## Trails -/

/-- The trail of a visit: distinct names none of which is finished, and room for all others. -/
structure Open (names : List String) (room : Nat) (path : List String) (name : String)
    (s : Search) : Prop where
  room : names.length ≤ room + path.length
  nodup : (path ++ [name]).Nodup
  subset : path ++ [name] ⊆ names
  fresh : ∀ a ∈ path ++ [name], a ∉ s.done

/-- There is room for the name itself. -/
theorem Open.room_ne_zero (h : Open names room path name s) : room ≠ 0 := by
  rintro rfl
  have hle := (List.subperm_of_subset h.nodup h.subset).length_le
  have hroom := h.room
  rw [List.length_append, List.length_singleton] at hle
  omega

theorem Open.next (h : Open names (room + 1) path name s) (hchild : child ∈ names)
    (htrail : child ∉ path ++ [name]) (ht : ∀ a ∈ path ++ [name], a ∉ t.done)
    (hfresh : child ∉ t.done) : Open names room (path ++ [name]) child t where
  room := by
    have := h.room
    rw [List.length_append, List.length_singleton]
    omega
  nodup := by
    rw [← List.concat_eq_append, List.nodup_concat]
    exact ⟨htrail, h.nodup⟩
  subset := List.append_subset.2 ⟨h.subset, by simpa using hchild⟩
  fresh := by
    intro a ha
    rcases List.mem_append.1 ha with ha | ha
    · exact ht a ha
    · rwa [List.mem_singleton.1 ha]

/-! ## What a visit reports -/

/-- A step to `b` is settled: `b` is finished, or it is on the trail, and the trail from there on is
reported. -/
def Settled (trail : List String) (s : Search) (b : String) : Prop :=
  (b ∈ s.done ∧ b ∉ trail) ∨
    (b ∈ trail ∧ ∃ cycle ∈ s.cycles, trail.dropWhile (· != b) <+: cycle)

/-- The steps from all that is finished between two states are settled. -/
def Tied (children : String → List String) (trail : List String) (s s' : Search) : Prop :=
  ∀ a ∈ s'.done, a ∉ s.done → ∀ b ∈ children a, Settled trail s' b

theorem Settled.mono {b : String} (h : Settled trail s b) (hlater : Extends s s') :
    Settled trail s' b :=
  h.imp (fun h => ⟨hlater.done h.1, h.2⟩)
    fun ⟨hb, cycle, hcycle, hpre⟩ => ⟨hb, cycle, hlater.cycles.subset hcycle, hpre⟩

theorem Tied.refl (trail : List String) (s : Search) : Tied children trail s s :=
  fun _ ha hnot => absurd ha hnot

theorem Tied.trans (h : Tied children trail s s') (h' : Tied children trail s' t)
    (hlater : Extends s' t) : Tied children trail s t := by
  intro a ha hnot b hb
  by_cases hdone : a ∈ s'.done
  · exact (h a hdone hnot b hb).mono hlater
  · exact h' a ha hdone b hb

/-- What is settled behind a longer trail is settled behind the trail. -/
theorem Settled.of_concat {b : String} (h : Settled (trail ++ [child]) s b)
    (hchild : child ∈ s.done) (htrail : child ∉ trail) : Settled trail s b := by
  rcases h with ⟨hb, hnot⟩ | ⟨hb, cycle, hcycle, hpre⟩
  · exact .inl ⟨hb, fun h => hnot (List.mem_append_left _ h)⟩
  · by_cases hmem : b ∈ trail
    · refine .inr ⟨hmem, cycle, hcycle, List.IsPrefix.trans ?_ hpre⟩
      obtain ⟨-, behind, -, hdrop⟩ := dropWhile_of_mem hmem
      rw [List.dropWhile_append, hdrop]
      exact List.prefix_append _ _
    · obtain rfl : b = child := by simpa [hmem] using hb
      exact .inl ⟨hchild, htrail⟩

/-- After all children have been followed, the steps to them are settled, and the steps from
whatever has been finished on the way. -/
theorem foldl_follow_tied {nodes : List String}
    (hvisit : ∀ s, (∀ a ∈ trail, a ∉ s.done) → ∀ child ∈ nodes, child ∉ s.done → child ∉ trail →
      child ∈ (visit children room trail child s).done ∧
        Tied children (trail ++ [child]) s (visit children room trail child s)) :
    ∀ s, (∀ a ∈ trail, a ∉ s.done) →
      Tied children trail s (nodes.foldl (follow children room trail) s) ∧
        ∀ child ∈ nodes, Settled trail (nodes.foldl (follow children room trail) s) child := by
  induction nodes with
  | nil => exact fun s _ => ⟨.refl trail s, by simp⟩
  | cons child nodes ih =>
    intro s hs
    have hstep : Tied children trail s (follow children room trail s child) ∧
        Settled trail (follow children room trail s child) child := by
      obtain ⟨hdone, h⟩ | ⟨-, htrail, h⟩ | ⟨hfresh, htrail, h⟩ :=
        follow_cases children room trail s child <;> rw [h]
      · exact ⟨.refl trail s, .inl ⟨hdone, fun htrail => hs child htrail hdone⟩⟩
      · exact ⟨fun a ha hnot => absurd ha hnot,
          .inr ⟨htrail, _, List.mem_append_right _ (List.mem_singleton_self _),
            List.prefix_append _ _⟩⟩
      · obtain ⟨hdone, htied⟩ := hvisit s hs child (by simp) hfresh htrail
        exact ⟨fun a ha hnot b hb => (htied a ha hnot b hb).of_concat hdone htrail,
          .inl ⟨hdone, htrail⟩⟩
    have hfresh : ∀ a ∈ trail, a ∉ (follow children room trail s child).done :=
      not_mem_done_foldl_follow hs [child]
    obtain ⟨htied, hsettled⟩ := ih (fun s hs a ha => hvisit s hs a (by simp [ha]))
      (follow children room trail s child) hfresh
    have hlater : Extends (follow children room trail s child)
        (nodes.foldl (follow children room trail) (follow children room trail s child)) :=
      foldl_follow_extends room trail nodes _
    exact ⟨hstep.1.trans htied hlater,
      List.forall_mem_cons.2 ⟨hstep.2.mono hlater, hsettled⟩⟩

/-- A visit finishes its name, and settles the steps from all that it finishes. -/
theorem visit_tied (hnames : ∀ a, ∀ b ∈ children a, b ∈ names) (room : Nat) :
    ∀ path name s, Open names room path name s →
      name ∈ (visit children room path name s).done ∧
        Tied children (path ++ [name]) s (visit children room path name s) := by
  induction room with
  | zero => exact fun path name s h => absurd rfl h.room_ne_zero
  | succ room ih =>
    intro path name s h
    obtain ⟨htied, hsettled⟩ := foldl_follow_tied
      (fun t ht child hchild hfresh htrail =>
        ih (path ++ [name]) child t (h.next (hnames name child hchild) htrail ht hfresh))
      s h.fresh
    have hlater : Extends ((children name).foldl (follow children room (path ++ [name])) s)
        (visit children (room + 1) path name s) :=
      ⟨fun a ha => List.mem_cons_of_mem _ ha, List.prefix_rfl⟩
    refine ⟨List.mem_cons_self, fun a ha hnot b hb => ?_⟩
    rcases List.mem_cons.1 ha with rfl | ha
    · exact (hsettled b hb).mono hlater
    · exact (htied a ha hnot b hb).mono hlater

/-! ## Entering a name -/

/-- The search comes to a name that is neither finished nor on the trail: by `path`, in the state
`s`, and with room for as many more names. -/
inductive Enters (children : String → List String) (names : List String) :
    Nat → List String → String → Search → Prop where
  | first {before behind : List String} {name : String} : names = before ++ name :: behind →
    name ∉ (before.foldl (follow children names.length []) ⟨[], []⟩).done →
    Enters children names names.length [] name
      (before.foldl (follow children names.length []) ⟨[], []⟩)
  | next {room : Nat} {path before behind : List String} {name child : String} {s : Search} :
    Enters children names (room + 1) path name s → children name = before ++ child :: behind →
    child ∉ (before.foldl (follow children room (path ++ [name])) s).done →
    child ∉ path ++ [name] →
    Enters children names room (path ++ [name]) child
      (before.foldl (follow children room (path ++ [name])) s)

theorem Enters.isOpen (hnames : ∀ a, ∀ b ∈ children a, b ∈ names)
    (h : Enters children names room path name s) : Open names room path name s := by
  induction h with
  | first hsplit hfresh =>
    refine ⟨by simp, List.nodup_singleton _, ?_, by simpa using hfresh⟩
    rw [hsplit]
    simp
  | next h hsplit hfresh htrail ih =>
    exact ih.next (hnames _ _ (by rw [hsplit]; simp)) htrail
      (not_mem_done_foldl_follow ih.fresh _) hfresh

theorem Enters.isChain (h : Enters children names room path name s) :
    List.IsChain (fun a b => b ∈ children a) (path ++ [name]) := by
  induction h with
  | first => exact List.isChain_singleton _
  | @next room path before behind name child s h hsplit _ _ ih =>
    refine List.isChain_append.2 ⟨ih, List.isChain_singleton _, fun a ha b hb => ?_⟩
    rw [List.getLast?_concat] at ha
    cases ha
    cases hb
    rw [hsplit]
    simp

/-- The search has come to every name on the trail, when no more was finished than now. -/
theorem Enters.of_mem (h : Enters children names room path name s) {a : String}
    (ha : a ∈ path ++ [name]) : ∃ room' path' s', Enters children names room' path' a s' ∧
      s'.done ⊆ s.done := by
  induction h with
  | @first before behind name hsplit hfresh =>
    obtain rfl : a = name := by simpa using ha
    exact ⟨_, _, _, .first hsplit hfresh, List.Subset.refl _⟩
  | @next room path before behind name child s h hsplit hfresh htrail ih =>
    rcases List.mem_append.1 ha with ha | ha
    · obtain ⟨room', path', s', h', hsub⟩ := ih ha
      exact ⟨room', path', s', h', List.Subset.trans hsub (foldl_follow_extends _ _ _ _).done⟩
    · obtain rfl := List.mem_singleton.1 ha
      exact ⟨_, _, _, .next h hsplit hfresh htrail, List.Subset.refl _⟩

/-- What a visit reports is reported in the end. -/
theorem Enters.mem_search (h : Enters children names room path name s) :
    ∀ cycle ∈ (visit children room path name s).cycles, cycle ∈ search children names := by
  induction h with
  | @first before behind name hsplit hfresh =>
    intro cycle hcycle
    rw [search_eq, hsplit, List.foldl_append, List.foldl_cons, ← hsplit,
      follow_of_fresh hfresh List.not_mem_nil]
    exact (foldl_follow_extends _ _ _ _).cycles.subset hcycle
  | @next room path before behind name child s h hsplit hfresh htrail ih =>
    intro cycle hcycle
    apply ih
    rw [visit_succ, hsplit, List.foldl_append, List.foldl_cons, follow_of_fresh hfresh htrail]
    exact (foldl_follow_extends _ _ _ _).cycles.subset hcycle

/-- A report is made behind a trail: it shows the trail from a child of its last name on. -/
def Arises (children : String → List String) (names cycle : List String) : Prop :=
  ∃ room path name s child, Enters children names room path name s ∧ child ∈ children name ∧
    child ∈ path ++ [name] ∧
    cycle = (path ++ [name]).dropWhile (· != child) ++ [child]

/-- The reports that are made while names are followed arise behind a trail. -/
theorem arises_of_mem_foldl {nodes : List String} (hvisit : ∀ before child behind,
      nodes = before ++ child :: behind →
      child ∉ (before.foldl (follow children room trail) s).done → child ∉ trail →
      ∀ cycle ∈ (visit children room trail child
        (before.foldl (follow children room trail) s)).cycles,
      cycle ∈ (before.foldl (follow children room trail) s).cycles ∨
        Arises children names cycle)
    (hclose : ∀ child ∈ nodes, child ∈ trail →
      Arises children names (trail.dropWhile (· != child) ++ [child])) :
    ∀ before behind, nodes = before ++ behind →
      ∀ cycle ∈ (before.foldl (follow children room trail) s).cycles,
        cycle ∈ s.cycles ∨ Arises children names cycle := by
  intro before
  induction before using List.reverseRecOn with
  | nil => exact fun behind _ cycle hcycle => .inl hcycle
  | append_singleton before child ih =>
    intro behind hsplit cycle hcycle
    rw [List.append_assoc] at hsplit
    have hbefore := ih _ hsplit
    rw [List.foldl_append, List.foldl_cons, List.foldl_nil] at hcycle
    obtain ⟨-, h⟩ | ⟨-, htrail, h⟩ | ⟨hdone, htrail, h⟩ := follow_cases children room trail
      (before.foldl (follow children room trail) s) child <;> rw [h] at hcycle
    · exact hbefore cycle hcycle
    · rcases List.mem_append.1 hcycle with hcycle | hcycle
      · exact hbefore cycle hcycle
      · obtain rfl := List.mem_singleton.1 hcycle
        exact .inr (hclose child (by rw [hsplit]; simp) htrail)
    · rcases hvisit before child behind hsplit hdone htrail cycle hcycle with hcycle | h
      · exact hbefore cycle hcycle
      · exact .inr h

theorem arises_of_mem_visit (room : Nat) : ∀ path name s, Enters children names room path name s →
    ∀ cycle ∈ (visit children room path name s).cycles,
      cycle ∈ s.cycles ∨ Arises children names cycle := by
  induction room with
  | zero => exact fun path name s _ cycle hcycle => .inl hcycle
  | succ room ih =>
    intro path name s h
    exact arises_of_mem_foldl
      (fun before child behind hsplit hdone htrail => ih _ _ _ (.next h hsplit hdone htrail))
      (fun child hchild htrail => ⟨_, _, _, _, _, h, hchild, htrail, rfl⟩)
      (children name) [] (List.append_nil _).symm

/-- Every report arises behind a trail. -/
theorem arises_of_mem_search {cycle : List String} (h : cycle ∈ search children names) :
    Arises children names cycle := by
  rw [search_eq] at h
  have hall : ∀ cycle ∈ (names.foldl (follow children names.length []) ⟨[], []⟩).cycles,
      cycle ∈ ([] : List (List String)) ∨ Arises children names cycle :=
    arises_of_mem_foldl
      (fun before child behind hsplit hdone _ =>
        arises_of_mem_visit _ _ _ _ (.first hsplit hdone))
      (fun child _ htrail => absurd htrail List.not_mem_nil) names [] (List.append_nil _).symm
  exact (hall cycle h).resolve_left List.not_mem_nil

/-! ## Names that are shown -/

/-- A name is shown by a report if and only if it lies on a cycle of names none of which was
finished when the search entered it. -/
theorem shown_iff (hnames : ∀ a, ∀ b ∈ children a, b ∈ names) :
    (∃ cycle ∈ search children names, name ∈ cycle) ↔
      ∃ room path s, Enters children names room path name s ∧
        Relation.TransGen (fun a b => b ∈ children a ∧ b ∉ s.done) name name := by
  constructor
  · rintro ⟨cycle, hcycle, hname⟩
    obtain ⟨room, path, last, s, child, h, hchild, htrail, rfl⟩ := arises_of_mem_search hcycle
    have hopen := h.isOpen hnames
    have hsub : ∀ a ∈ (path ++ [last]).dropWhile (· != child) ++ [child], a ∈ path ++ [last] := by
      intro a ha
      rcases List.mem_append.1 ha with ha | ha
      · exact (List.dropWhile_suffix _).subset ha
      · rwa [List.mem_singleton.1 ha]
    obtain ⟨room', path', s', h', hdone⟩ := h.of_mem (hsub name hname)
    refine ⟨room', path', s', h', ?_⟩
    have hcircuit := (circuit_of_mem_path h.isChain hopen.nodup hchild htrail).1
    exact (hcircuit.and fun a ha hmem => hopen.fresh a (hsub a ha) (hdone hmem)).transGen_self
      hname
  · rintro ⟨room, path, s, h, hcycle⟩
    have hopen := h.isOpen hnames
    obtain ⟨hname, htied⟩ := visit_tied hnames room path name s hopen
    by_contra hnone
    -- a step back to the trail would be reported together with the name, the last of the trail
    have hback : ∀ b, Settled (path ++ [name]) (visit children room path name s) b →
        b ∈ (visit children room path name s).done ∧ b ∉ path ++ [name] := by
      intro b hb
      refine hb.resolve_right fun ⟨hmem, cycle, hreport, hpre⟩ => ?_
      refine hnone ⟨cycle, h.mem_search cycle hreport, hpre.subset ?_⟩
      obtain ⟨front, behind, hsplit, hdrop⟩ := dropWhile_of_mem hmem
      have hlast := congrArg List.getLast? hsplit
      rw [List.getLast?_concat, List.getLast?_append_of_ne_nil _ (List.cons_ne_nil _ _)] at hlast
      rw [hdrop]
      exact List.mem_of_getLast? hlast.symm
    have hreach : ∀ b, Relation.TransGen (fun a b => b ∈ children a ∧ b ∉ s.done) name b →
        b ∈ (visit children room path name s).done ∧ b ∉ path ++ [name] ∧ b ∉ s.done := by
      intro b hb
      induction hb with
      | single hstep =>
        have := hback _ (htied name hname (hopen.fresh name (by simp)) _ hstep.1)
        exact ⟨this.1, this.2, hstep.2⟩
      | tail _ hstep ih =>
        have := hback _ (htied _ ih.1 ih.2.2 _ hstep.1)
        exact ⟨this.1, this.2, hstep.2⟩
    exact (hreach name hcycle).2.1 (by simp)

/-- A name on a cycle is shown if no name before it leads to it. -/
theorem shown_of_first (hnames : ∀ a, ∀ b ∈ children a, b ∈ names) {before behind : List String}
    (hsplit : names = before ++ name :: behind)
    (hself : Relation.TransGen (fun a b => b ∈ children a) name name)
    (hbefore : ∀ a ∈ before, ¬ Relation.ReflTransGen (fun a b => b ∈ children a) a name) :
    ∃ cycle ∈ search children names, name ∈ cycle := by
  -- what is finished when the name comes is reached from the names before it
  have hdone : ∀ b, Relation.ReflTransGen (fun a b => b ∈ children a) b name →
      b ∉ (before.foldl (follow children names.length []) ⟨[], []⟩).done := by
    intro b hb hmem
    rcases mem_done_foldl_follow (mem_done_visit names.length []) before ⟨[], []⟩ b hmem with
      h | ⟨-, a, ha, hab⟩
    · cases h
    · exact hbefore a ha (hab.trans hb)
  refine (shown_iff hnames).2 ⟨_, _, _, .first hsplit (hdone name .refl), ?_⟩
  have hwalk : ∀ b, Relation.TransGen (fun a b => b ∈ children a) b name →
      Relation.TransGen (fun a b => b ∈ children a ∧
        b ∉ (before.foldl (follow children names.length []) ⟨[], []⟩).done) b name := by
    intro b hb
    induction hb using Relation.TransGen.head_induction_on with
    | single hstep => exact .single ⟨hstep, hdone _ .refl⟩
    | head hstep hrest ih => exact .head ⟨hstep, hdone _ hrest.to_reflTransGen⟩ ih
  exact hwalk name hself

/-- Every circuit has a step that a report ends with. -/
theorem exists_closes_of_circuit (hnames : ∀ a, ∀ b ∈ children a, b ∈ names)
    (hkeys : ∀ a, children a ≠ [] → a ∈ names) {walk : List String}
    (h : Circuit (fun a b => b ∈ children a) walk) :
    ∃ a b, [a, b] <:+: walk ∧ Closes (search children names) a b := by
  by_contra hnone
  obtain ⟨a, inner, rfl, -, hchain⟩ := h
  have hmem : a ∈ inner ++ [a] := by simp
  refine not_transGen_uncut hnames hkeys a (transGen_of_isChain ?_ hmem)
  rw [List.isChain_iff_forall_rel_of_append_cons_cons] at hchain ⊢
  exact fun b c before behind hsplit => ⟨hchain hsplit,
    fun hbc => hnone ⟨b, c, ⟨before, behind, by simpa using hsplit.symm⟩, hbc⟩⟩

/-! ## Lattices that are shown -/

/-- A report about a cycle shows the lattice `name`. -/
def Shown (lenient : Bool) (lattices : List (String × Json)) (name : String) : Prop :=
  ∃ x ∈ (cycleFindings lattices).map (Finding.report lenient), ∃ cycle,
    x.rule = .cycle cycle ∧ name ∈ cycle

variable {lenient : Bool} {lattices : List (String × Json)}

theorem shown_iff_mem_search : Shown lenient lattices name ↔
    ∃ cycle ∈ search (mentions lattices) (Table.keys lattices), name ∈ cycle := by
  constructor
  · rintro ⟨x, hx, cycle, hrule, hname⟩
    obtain ⟨cycle', hcycle, rfl⟩ := mem_map_report_cycleFindings.1 hx
    cases hrule
    exact ⟨cycle, hcycle, hname⟩
  · rintro ⟨cycle, hcycle, hname⟩
    exact ⟨_, mem_map_report_cycleFindings.2 ⟨cycle, hcycle, rfl⟩, cycle, rfl, hname⟩

/-- Which lattices the reports about cycles show. A lattice is shown if and only if it lies on a
cycle of lattices none of which the search had finished when it came to that lattice; so a lattice
on a cycle is shown if no lattice declared before it leads to it. Every cycle has a step that a
report ends with. -/
theorem cycleFindings_shown (lenient : Bool) (lattices : List (String × Json)) :
    (∀ name, Shown lenient lattices name ↔ ∃ room path s,
      Enters (mentions lattices) (Table.keys lattices) room path name s ∧
        Relation.TransGen (fun a b => Nests lattices a b ∧ b ∉ s.done) name name) ∧
    (∀ before name behind, Table.keys lattices = before ++ name :: behind →
      Relation.TransGen (Nests lattices) name name →
      (∀ a ∈ before, ¬ Relation.ReflTransGen (Nests lattices) a name) →
      Shown lenient lattices name) ∧
    (∀ walk, Circuit (Nests lattices) walk → ∃ a b, [a, b] <:+: walk ∧
      ∃ x ∈ (cycleFindings lattices).map (Finding.report lenient), ∃ cycle,
        x.rule = .cycle cycle ∧ [a, b] <:+ cycle) := by
  have hnests : ∀ s : Search, (fun a b => b ∈ mentions lattices a ∧ b ∉ s.done) =
      fun a b => Nests lattices a b ∧ b ∉ s.done := by
    intro s
    funext a b
    rw [mem_mentions_iff]
  refine ⟨fun name => ?_, fun before name behind hsplit hself hbefore => ?_, fun walk hwalk => ?_⟩
  · rw [shown_iff_mem_search, shown_iff mem_keys_of_mem_mentions]
    simp only [hnests]
  · rw [← mentions_eq_nests] at hself hbefore
    exact shown_iff_mem_search.2 (shown_of_first mem_keys_of_mem_mentions hsplit hself hbefore)
  · rw [← mentions_eq_nests] at hwalk
    obtain ⟨a, b, hab, cycle, hcycle, hend⟩ :=
      exists_closes_of_circuit mem_keys_of_mem_mentions mem_keys_of_mentions_ne_nil hwalk
    exact ⟨a, b, hab, _, mem_map_report_cycleFindings.2 ⟨cycle, hcycle, rfl⟩, cycle, rfl, hend⟩

/-- Two cycles that share the way from `B` to `A`. -/
def forkedLattices : List (String × Json) :=
  [("A", .arr [.str "B", .str "C"]), ("B", .arr [.str "A"]), ("C", .arr [.str "B"])]

theorem nests_forkedLattices : Nests forkedLattices "A" "B" ∧ Nests forkedLattices "A" "C" ∧
    Nests forkedLattices "B" "A" ∧ Nests forkedLattices "C" "B" := by
  simp only [← mem_mentions_iff]
  decide +kernel

/-- The lattice that the search starts from is shown. -/
theorem cycleFindings_shown_forkedLattices :
    Relation.TransGen (Nests forkedLattices) "A" "A" ∧ Shown false forkedLattices "A" := by
  obtain ⟨hAB, -, hBA, -⟩ := nests_forkedLattices
  have hself := Relation.TransGen.tail (.single hAB) hBA
  exact ⟨hself, (cycleFindings_shown false forkedLattices).2.1 [] "A" ["B", "C"] rfl hself (by simp)⟩

/-- Not every lattice on a cycle is shown: when the search comes to `C`, it has finished `B`. -/
theorem not_forall_shown : ¬ ∀ lattices name,
    Relation.TransGen (Nests lattices) name name → Shown false lattices name := by
  intro h
  obtain ⟨-, hAC, hBA, hCB⟩ := nests_forkedLattices
  have hself := Relation.TransGen.tail (.tail (.single hCB) hBA) hAC
  obtain ⟨cycle, hcycle, hname⟩ := shown_iff_mem_search.1 (h forkedLattices "C" hself)
  have honly : search (mentions forkedLattices) (Table.keys forkedLattices) =
      [["A", "B", "A"]] := by
    decide +kernel
  rw [honly, List.mem_singleton] at hcycle
  rw [hcycle] at hname
  exact absurd hname (by decide)

end Beamline.Validation

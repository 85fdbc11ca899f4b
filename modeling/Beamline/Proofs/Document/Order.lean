import Beamline.Document.Order
import Beamline.Proofs.Document.Lawful

/-!
# The order of dependency

* `Document.inDependencyOrder_congr` : nothing but the lattices counts;
* `Listing.Good` : what holds while lattices are being listed;
* `Document.inDependencyOrder_perm` : every lattice is listed once;
* `Document.layered_inDependencyOrder` : each is listed behind the lattices that it names;
* `Document.inDependencyOrder_eq_self` : lattices that stand in such an order stay as they are;
* `Document.transGen_of_listed_before` : the order of declaration is left only for the sake of a
  lattice that comes earlier.
-/

namespace Beamline.Document

open Reach

variable {d : Document}

/-- The order depends on the lattices alone. -/
theorem inDependencyOrder_congr {d' : Document} (h : d'.lattices = d.lattices) :
    d'.inDependencyOrder = d.inDependencyOrder := by
  have hlookup : d'.lattice? = d.lattice? := by
    funext name
    rw [lattice?, lattice?, h]
  have hlist : ∀ room, listLattice d' room = listLattice d room := by
    intro room
    induction room with
    | zero => rfl
    | succ room ih =>
      funext s l
      rw [listLattice, listLattice, ih, hlookup]
  unfold inDependencyOrder
  rw [hlist, h]

/-- What holds while the lattices on `path` are being listed. All that has been seen has been listed
or is on the path. -/
structure Listing.Good (d : Document) (path : List String) (s : Listing) : Prop where
  seen : s.seen.Perm (s.listed.map (·.name) ++ path)
  nodup : s.seen.Nodup
  named : s.seen ⊆ d.lattices.map (·.name)
  declared : s.listed ⊆ d.lattices
  layered : Layered d.Mentions (s.listed.map (·.name)).reverse

/-- Nothing is seen or listed any less. -/
structure Listing.Grows (s t : Listing) : Prop where
  seen : s.seen.length ≤ t.seen.length
  listed : s.listed ⊆ t.listed

theorem Listing.Grows.refl (s : Listing) : s.Grows s :=
  ⟨Nat.le_refl _, List.Subset.refl _⟩

theorem Listing.Grows.trans {s t u : Listing} (h : s.Grows t) (h' : t.Grows u) : s.Grows u :=
  ⟨Nat.le_trans h.seen h'.seen, List.Subset.trans h.listed h'.listed⟩

theorem Listing.Good.length_seen {path : List String} {s : Listing} (h : s.Good d path) :
    s.seen.length ≤ d.lattices.length := by
  have := (h.nodup.subperm h.named).length_le
  rwa [List.length_map] at this

/-- What it takes that `list` lists the lattice `l` behind the lattices on `path`. -/
def Listing.Lists (d : Document) (path : List String) (room : Nat)
    (list : Listing → Lattice → Listing) (l : Lattice) : Prop :=
  ∀ s : Listing, s.Good d (l.name :: path) → d.lattices.length < room + s.seen.length →
    (list s l).Good d path ∧ s.Grows (list s l) ∧ l ∈ (list s l).listed

theorem enter_good (hnames : (d.lattices.map (·.name)).Nodup) {path : List String} {room : Nat}
    {list : Listing → Lattice → Listing} {l : Lattice} (hl : l ∈ d.lattices)
    (hlist : Listing.Lists d path room list l) (hfresh : l.name ∉ path) {s : Listing}
    (hs : s.Good d path) (hroom : d.lattices.length ≤ room + s.seen.length) :
    (s.enter list l).Good d path ∧ s.Grows (s.enter list l) ∧ l ∈ (s.enter list l).listed := by
  unfold Listing.enter
  by_cases hseen : l.name ∈ s.seen
  · rw [if_pos (List.contains_iff_mem.2 hseen)]
    refine ⟨hs, .refl s, ?_⟩
    rw [hs.seen.mem_iff, List.mem_append, or_iff_left hfresh, List.mem_map] at hseen
    obtain ⟨l', hl', heq⟩ := hseen
    rwa [← List.inj_on_of_nodup_map hnames (hs.declared hl') hl heq]
  · rw [if_neg (by rwa [List.contains_iff_mem])]
    have hgood : Listing.Good d (l.name :: path) { s with seen := l.name :: s.seen } :=
      ⟨(hs.seen.cons l.name).trans List.perm_middle.symm, List.nodup_cons.2 ⟨hseen, hs.nodup⟩,
        List.cons_subset.2 ⟨List.mem_map_of_mem hl, hs.named⟩, hs.declared, hs.layered⟩
    obtain ⟨h, hgrows, hmem⟩ := hlist _ hgood (by rw [List.length_cons]; omega)
    exact ⟨h, ⟨Nat.le_trans (Nat.le_succ _) hgrows.seen, hgrows.listed⟩, hmem⟩

/-- Lattices that are entered one after the other are all listed. -/
theorem foldl_enter_good (hnames : (d.lattices.map (·.name)).Nodup) {path : List String}
    {room : Nat} {list : Listing → Lattice → Listing} {ls : List Lattice}
    (hls : ∀ l ∈ ls, l ∈ d.lattices ∧ Listing.Lists d path room list l ∧ l.name ∉ path) :
    ∀ s : Listing, s.Good d path → d.lattices.length ≤ room + s.seen.length →
      (ls.foldl (Listing.enter list) s).Good d path ∧ s.Grows (ls.foldl (Listing.enter list) s) ∧
        ls ⊆ (ls.foldl (Listing.enter list) s).listed := by
  induction ls with
  | nil => exact fun s hs _ => ⟨hs, .refl s, List.nil_subset _⟩
  | cons l ls ih =>
    intro s hs hroom
    obtain ⟨⟨hl, hlist, hfresh⟩, hrest⟩ := List.forall_mem_cons.1 hls
    obtain ⟨hgood, hgrows, hmem⟩ := enter_good hnames hl hlist hfresh hs hroom
    obtain ⟨h, hgrows', hsub⟩ := ih hrest _ hgood (by have := hgrows.seen; omega)
    exact ⟨h, hgrows.trans hgrows', List.cons_subset.2 ⟨hgrows'.listed hmem, hsub⟩⟩

/-- What a lattice refers to as a lattice. -/
theorem Lawful.mentions_iff (h : d.Lawful) {l : Lattice} (hl : l ∈ d.lattices) {name : String} :
    d.Mentions l.name name ↔ ∃ sub ∈ l.references.filterMap d.lattice?, sub.name = name := by
  constructor
  · rintro ⟨l', hl', heq, href, sub, hsub, rfl⟩
    obtain rfl := List.inj_on_of_nodup_map h.latticeNames hl' hl heq
    exact ⟨sub, List.mem_filterMap.2 ⟨_, href, h.lattice?_of_mem hsub⟩, rfl⟩
  · rintro ⟨sub, hsub, rfl⟩
    obtain ⟨name, href, hfind⟩ := List.mem_filterMap.1 hsub
    have hname : sub.name = name := by
      simpa using List.find?_some hfind
    exact ⟨l, hl, rfl, hname ▸ href, sub, List.mem_of_find?_eq_some hfind, rfl⟩

/-- A lattice is listed with all that it names. No lattice on the path is among them, for the path
leads to the lattice. -/
theorem listLattice_lists (h : d.Lawful) (room : Nat) : ∀ (path : List String) (l : Lattice),
    l ∈ d.lattices → (∀ name ∈ path, Relation.TransGen d.Mentions name l.name) →
      Listing.Lists d path room (listLattice d room) l := by
  induction room with
  | zero =>
    intro path l _ _ s hs hroom
    -- no room is left only when more has been seen than there is
    have := hs.length_seen
    omega
  | succ room ih =>
    intro path l hl hpath s hs hroom
    have hsubs : ∀ sub ∈ l.references.filterMap d.lattice?, sub ∈ d.lattices ∧
        Listing.Lists d (l.name :: path) room (listLattice d room) sub ∧
        sub.name ∉ l.name :: path := by
      intro sub hsub
      obtain ⟨name, -, hfind⟩ := List.mem_filterMap.1 hsub
      have hmentions : d.Mentions l.name sub.name := (h.mentions_iff hl).2 ⟨sub, hsub, rfl⟩
      have hreach : ∀ name ∈ l.name :: path, Relation.TransGen d.Mentions name sub.name := by
        intro name hname
        rcases List.mem_cons.1 hname with rfl | hname
        · exact .single hmentions
        · exact .tail (hpath name hname) hmentions
      have hmem := List.mem_of_find?_eq_some hfind
      -- a lattice on the path would reach itself
      exact ⟨hmem, ih _ sub hmem hreach, fun hgrey => h.acyclic _ (hreach _ hgrey)⟩
    obtain ⟨hgood, hgrows, hlisted⟩ := foldl_enter_good h.latticeNames hsubs s hs (by omega)
    rw [listLattice]
    refine ⟨⟨?_, hgood.nodup, hgood.named, ?_, ?_⟩, ⟨hgrows.seen, ?_⟩, by simp⟩
    · simpa using hgood.seen
    · exact List.append_subset.2 ⟨hgood.declared, by simpa using hl⟩
    · rw [List.map_append, List.reverse_append]
      refine ⟨fun name hname => ?_, hgood.layered⟩
      obtain ⟨sub, hsub, rfl⟩ := (h.mentions_iff hl).1 hname
      exact List.mem_reverse.2 (List.mem_map_of_mem (hlisted hsub))
    · exact fun l' hl' => List.mem_append_left _ (hgrows.listed hl')

theorem Lawful.listing_good (h : d.Lawful) :
    let s := d.lattices.foldl (Listing.enter (listLattice d d.lattices.length)) ⟨[], []⟩
    s.Good d [] ∧ d.lattices ⊆ s.listed := by
  have hstart : Listing.Good d [] ⟨[], []⟩ :=
    ⟨.nil, List.nodup_nil, List.nil_subset _, List.nil_subset _, trivial⟩
  obtain ⟨hgood, -, hsub⟩ := foldl_enter_good h.latticeNames
    (fun l hl => ⟨hl, listLattice_lists h d.lattices.length [] l hl (by simp), by simp⟩) _
    hstart (by simp)
  exact ⟨hgood, hsub⟩

theorem Lawful.inDependencyOrder_perm (h : d.Lawful) : d.inDependencyOrder.Perm d.lattices := by
  obtain ⟨hgood, hsub⟩ := h.listing_good
  have hnodup : d.inDependencyOrder.Nodup := by
    have := hgood.seen.nodup hgood.nodup
    rw [List.append_nil] at this
    exact this.of_map
  exact (List.perm_ext_iff_of_nodup hnodup h.latticeNames.of_map).2
    fun l => ⟨fun hl => hgood.declared hl, fun hl => hsub hl⟩

theorem Lawful.layered_inDependencyOrder (h : d.Lawful) :
    Layered d.Mentions (d.inDependencyOrder.map (·.name)).reverse :=
  h.listing_good.1.layered

/-! ## Lattices in order already -/

theorem foldl_enter_of_seen {list : Listing → Lattice → Listing} {s : Listing} {ls : List Lattice}
    (h : ∀ l ∈ ls, l.name ∈ s.seen) : ls.foldl (Listing.enter list) s = s := by
  induction ls with
  | nil => rfl
  | cons l ls ih =>
    obtain ⟨hl, hls⟩ := List.forall_mem_cons.1 h
    rw [List.foldl_cons, Listing.enter, if_pos (List.contains_iff_mem.2 hl), ih hls]

theorem enter_listLattice {room : Nat} {s : Listing} {l : Lattice} (hl : l.name ∉ s.seen)
    (hsubs : ∀ sub ∈ l.references.filterMap d.lattice?, sub.name ∈ s.seen) :
    s.enter (listLattice d (room + 1)) l = ⟨l.name :: s.seen, s.listed ++ [l]⟩ := by
  have hseen : ∀ sub ∈ l.references.filterMap d.lattice?, sub.name ∈ l.name :: s.seen :=
    fun sub hsub => List.mem_cons_of_mem _ (hsubs sub hsub)
  rw [Listing.enter, if_neg (by rwa [List.contains_iff_mem]), listLattice,
    foldl_enter_of_seen hseen]

/-- Lattices that stand behind all that they name stay as they are. -/
theorem Lawful.inDependencyOrder_eq_self (h : d.Lawful)
    (hlayered : Layered d.Mentions (d.lattices.map (·.name)).reverse) :
    d.inDependencyOrder = d.lattices := by
  -- the lattices in `done` have been listed as they stand, and no other names are needed yet
  suffices hs : ∀ rest done : List Lattice, d.lattices = done ++ rest →
      rest.foldl (Listing.enter (listLattice d d.lattices.length))
        ⟨(done.map (·.name)).reverse, done⟩ = ⟨(d.lattices.map (·.name)).reverse, d.lattices⟩ by
    exact congrArg Listing.listed (hs d.lattices [] rfl)
  intro rest
  induction rest with
  | nil =>
    intro done heq
    rw [heq, List.append_nil, List.foldl_nil]
  | cons l rest ih =>
    intro done heq
    have hmem : l ∈ d.lattices := by simp [heq]
    obtain ⟨room, hroom⟩ : ∃ room, d.lattices.length = room + 1 :=
      ⟨done.length + rest.length, by rw [heq, List.length_append, List.length_cons]; omega⟩
    have hfresh : l.name ∉ (done.map (·.name)).reverse := by
      have hnodup := h.latticeNames
      rw [heq, List.map_append, List.map_cons] at hnodup
      rw [List.mem_reverse]
      exact notMem_of_nodup hnodup
    have hbehind : Layered d.Mentions (l.name :: (done.map (·.name)).reverse) := by
      rw [heq, List.map_append, List.reverse_append, List.map_cons, List.reverse_cons,
        List.append_assoc] at hlayered
      exact hlayered.of_append
    have hstep := @enter_listLattice d room ⟨(done.map (·.name)).reverse, done⟩ l hfresh
      (fun sub hsub => hbehind.1 _ ((h.mentions_iff hmem).2 ⟨sub, hsub, rfl⟩))
    rw [List.foldl_cons, hroom, hstep, ← hroom]
    simpa using ih (done ++ [l]) (by simp [heq])

/-! ## What is listed early -/

/-- From `s` to `t` only lattices that those in `ls` lead to are listed, behind the others. -/
structure Listing.Adds (d : Document) (ls : List Lattice) (s t : Listing) : Prop where
  behind : s.listed <+: t.listed
  reached : ∀ l ∈ t.listed, l ∈ s.listed ∨
    ∃ c ∈ ls, Relation.ReflTransGen d.Mentions c.name l.name

theorem Listing.Adds.refl (ls : List Lattice) (s : Listing) : s.Adds d ls s :=
  ⟨List.prefix_rfl, fun _ hl => .inl hl⟩

theorem foldl_enter_adds {list : Listing → Lattice → Listing} {ls : List Lattice}
    (hlist : ∀ l ∈ ls, ∀ s : Listing, s.Adds d [l] (list s l)) :
    ∀ s : Listing, s.Adds d ls (ls.foldl (Listing.enter list) s) := by
  induction ls with
  | nil => exact .refl []
  | cons l ls ih =>
    intro s
    obtain ⟨hl, hls⟩ := List.forall_mem_cons.1 hlist
    have henter : s.Adds d [l] (s.enter list l) := by
      unfold Listing.enter
      split
      · exact .refl _ s
      · obtain ⟨hbehind, hreached⟩ := hl { s with seen := l.name :: s.seen }
        exact ⟨hbehind, hreached⟩
    obtain ⟨hbehind, hreached⟩ := ih hls (s.enter list l)
    refine ⟨henter.behind.trans hbehind, fun l' hl' => ?_⟩
    rcases hreached l' hl' with hl' | ⟨c, hc, hreach⟩
    · refine (henter.reached l' hl').imp id fun ⟨c, hc, hreach⟩ => ⟨c, ?_, hreach⟩
      exact List.mem_singleton.1 hc ▸ List.mem_cons_self
    · exact .inr ⟨c, List.mem_cons_of_mem _ hc, hreach⟩

/-- A lattice is listed with nothing but what it leads to. -/
theorem listLattice_adds (h : d.Lawful) (room : Nat) : ∀ l ∈ d.lattices, ∀ s : Listing,
    s.Adds d [l] (listLattice d room s l) := by
  induction room with
  | zero => exact fun l _ s => .refl _ s
  | succ room ih =>
    intro l hl s
    have hsubs : ∀ sub ∈ l.references.filterMap d.lattice?, ∀ s : Listing,
        s.Adds d [sub] (listLattice d room s sub) := by
      intro sub hsub
      obtain ⟨name, -, hfind⟩ := List.mem_filterMap.1 hsub
      exact ih sub (List.mem_of_find?_eq_some hfind)
    obtain ⟨hbehind, hreached⟩ := foldl_enter_adds hsubs s
    rw [listLattice]
    refine ⟨hbehind.trans (List.prefix_append _ _), fun l' hl' => ?_⟩
    rcases List.mem_append.1 hl' with hl' | hl'
    · refine (hreached l' hl').imp id fun ⟨sub, hsub, hreach⟩ => ⟨l, List.mem_singleton_self l, ?_⟩
      exact .head ((h.mentions_iff hl).2 ⟨sub, hsub, rfl⟩) hreach
    · rw [List.mem_singleton.1 hl']
      exact .inr ⟨l, List.mem_singleton_self l, .refl⟩

/-- A lattice that is listed before one that is declared earlier is reached from a lattice that is
declared no later than that one. -/
theorem Lawful.transGen_of_listed_before (h : d.Lawful) {before after listed rest : List Lattice}
    {a b : Lattice} (hdeclared : d.lattices = before ++ a :: after)
    (horder : d.inDependencyOrder = listed ++ a :: rest) (hafter : b ∈ after)
    (hlisted : b ∈ listed) :
    ∃ c ∈ before ++ [a], Relation.TransGen d.Mentions c.name b.name := by
  rw [List.append_cons] at hdeclared
  have hmem : ∀ l ∈ before ++ [a], l ∈ d.lattices := fun l hl =>
    hdeclared ▸ List.mem_append_left _ hl
  let list := listLattice d d.lattices.length
  let s := (before ++ [a]).foldl (Listing.enter list) ⟨[], []⟩
  -- once the lattices up to `a` have been entered, `a` has been listed
  have hlist : ∀ ls ⊆ d.lattices, ∀ l ∈ ls, ∀ s : Listing, s.Adds d [l] (list s l) :=
    fun ls hls l hl => listLattice_adds h _ l (hls hl)
  have hlists : ∀ l ∈ before ++ [a], l ∈ d.lattices ∧
      Listing.Lists d [] d.lattices.length list l ∧ l.name ∉ ([] : List String) := fun l hl =>
    ⟨hmem l hl, listLattice_lists h d.lattices.length [] l (hmem l hl) (by simp), by simp⟩
  obtain ⟨-, -, hsub⟩ := foldl_enter_good h.latticeNames hlists ⟨[], []⟩
    ⟨.nil, List.nodup_nil, List.nil_subset _, List.nil_subset _, trivial⟩ (by simp)
  have ha : a ∈ s.listed := hsub (by simp)
  obtain ⟨more, hmore⟩ : s.listed <+: d.inDependencyOrder := by
    have hadds := foldl_enter_adds (hlist after fun l hl => by simp [hdeclared, hl]) s
    rw [inDependencyOrder, hdeclared, List.foldl_append, ← hdeclared]
    exact hadds.behind
  -- so what is listed before `a` has been listed by then
  have hb : b ∈ s.listed := by
    have hnodup : d.inDependencyOrder.Nodup :=
      h.inDependencyOrder_perm.nodup_iff.2 h.latticeNames.of_map
    rw [horder] at hmore hnodup
    rcases List.append_eq_append_iff.1 hmore with ⟨front, rfl, -⟩ | ⟨behind, hbehind, -⟩
    · exact absurd (List.mem_append_left _ ha) (notMem_of_nodup hnodup)
    · exact hbehind ▸ List.mem_append_left _ hlisted
  obtain ⟨c, hc, hreach⟩ := ((foldl_enter_adds (hlist _ hmem) _).reached b hb).resolve_left
    List.not_mem_nil
  refine ⟨c, hc, (Relation.reflTransGen_iff_eq_or_transGen.1 hreach).resolve_left fun heq => ?_⟩
  have hnames := h.latticeNames
  rw [hdeclared, List.map_append] at hnames
  exact List.disjoint_of_nodup_append hnames (List.mem_map_of_mem hc)
    (heq ▸ List.mem_map_of_mem hafter)

end Beamline.Document

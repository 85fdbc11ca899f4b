import Beamline.Proofs.Json.Pointer
import Beamline.Proofs.Migration.Composition
import Beamline.Proofs.Migration.Steps

/-!
# What the step from version 1 to 2 keeps

The main lattice of a document joins the further ones, whatever else the document holds.

* `exists_of_oneToTwo` : what a document holds on which the step succeeds;
* `KeepsMain`, `KeepsLattices`, `KeepsElements` : the parts of a document that another one has too;
* `entryKept_describeElement` : the entry of an element is kept but for its description;
* `exists_merged` : the lattices of both documents;
* `keeps_of_migrate` : the step keeps the main lattice and the elements, and all further lattices
  unless one of them has the name that the main one gets.
-/

namespace Beamline.Migration

variable {doc doc' rest subs : List (String × Json)} {main raw v : Json}

/-! ## Documents on which the step succeeds -/

theorem lookup_of_takeSubLattices (h : takeSubLattices doc = .ok (subs, rest)) :
    doc.lookup "sub_lattices" = none ∧ subs = [] ∨
      doc.lookup "sub_lattices" = some (.obj subs) := by
  unfold takeSubLattices Table.take? at h
  cases hsubs : doc.lookup "sub_lattices" with
  | none =>
    rw [hsubs] at h
    cases h
    exact .inl ⟨rfl, rfl⟩
  | some entry =>
    rw [hsubs] at h
    cases entry with
    | obj members =>
      cases h
      exact .inr rfl
    | _ => cases h

theorem lookup_of_takeMain (h : takeMain doc = .ok (main, rest)) :
    doc.lookup "lattice" = some main := by
  unfold takeMain Table.take? at h
  cases hmain : doc.lookup "lattice" with
  | none =>
    rw [hmain] at h
    cases h
  | some entry =>
    rw [hmain] at h
    cases h
    rfl

theorem lookup_of_mapElements {f : (name : String) → Json → Except Flaw Json}
    (h : mapElements f doc = .ok doc') :
    ∃ elements, doc.lookup "elements" = some (.obj elements) := by
  unfold mapElements at h
  cases helements : doc.lookup "elements" with
  | none =>
    rw [helements] at h
    cases h
  | some entry =>
    rw [helements] at h
    cases entry with
    | obj elements => exact ⟨elements, rfl⟩
    | _ => cases h

/-- A document on which the step succeeds has elements, a main lattice and perhaps further ones. -/
theorem exists_of_oneToTwo (hdoc : (Table.keys doc).Nodup) (h : oneToTwo doc = .ok doc') :
    ∃ elements subs main, doc.lookup "elements" = some (.obj elements) ∧
      (doc.lookup "sub_lattices" = none ∧ subs = [] ∨
        doc.lookup "sub_lattices" = some (.obj subs)) ∧
      doc.lookup "lattice" = some main := by
  have hname := lookup_renameName hdoc
  obtain ⟨⟨subs, rest⟩, htake, h⟩ := bind_eq_ok.1 h
  obtain ⟨⟨main, rest'⟩, htakeMain, h⟩ := bind_eq_ok.1 h
  obtain ⟨doc₁, hmap, -⟩ := bind_eq_ok.1 h
  have hsubs := lookup_of_takeSubLattices htake
  -- what is left without the further lattices
  obtain ⟨_, hrest, hnodup, hlookup⟩ :=
    exists_takeSubLattices (nodup_keys_renameName hdoc) hsubs
  rw [htake] at hrest
  cases hrest
  have hmain := lookup_of_takeMain htakeMain
  have hleft : rest' = Table.drop "lattice" rest := by
    rw [takeMain, Table.take?, hmain] at htakeMain
    cases htakeMain
    rfl
  obtain ⟨elements, helements⟩ := lookup_of_mapElements hmap
  have hjoined : (Table.keys (Table.put "root" (.str mainLattice)
      (Table.put "lattices" (.obj (Table.put mainLattice main subs)) rest'))).Nodup := by
    rw [hleft]
    exact Table.nodup_keys_put (Table.nodup_keys_put (Table.nodup_keys_drop hnodup _) _ _) _ _
  rw [lookup_renameDescription hjoined, hleft] at helements
  rw [hname] at hsubs
  rw [hlookup, hname] at hmain
  refine ⟨elements, subs, main, ?_, by simpa using hsubs, by simpa using hmain⟩
  simpa [Table.lookup_put, Table.lookup_drop hnodup, hlookup, hname] using helements

/-! ## What is kept -/

/-- The further lattice `name` of a document of version 1. -/
def subLattice? (raw : Json) (name : String) : Option Json :=
  (raw.get? "sub_lattices").bind (·.get? name)

/-- The lattice `name` of a document of version 2. -/
def lattice? (v : Json) (name : String) : Option Json :=
  (v.get? "lattices").bind (·.get? name)

/-- The main lattice of the one document is the root of the other. -/
def KeepsMain (raw v : Json) : Prop :=
  ∃ root main, v.get? "root" = some (.str root) ∧ raw.get? "lattice" = some main ∧
    lattice? v root = some main

/-- Every further lattice of the one document is a lattice of the other, with its name and items. -/
def KeepsLattices (raw v : Json) : Prop :=
  ∀ name items, subLattice? raw name = some items → lattice? v name = some items

/-- The entry of an element with the same tag and the same parameters, the description and the
remark apart. -/
structure EntryKept (entry entry' : Json) : Prop where
  tag : entry'.at? 0 = entry.at? 0
  parameter : ∀ key, key ≠ "description" → key ≠ "info" →
    (entry'.at? 1).bind (·.get? key) = (entry.at? 1).bind (·.get? key)
  whole : (∀ params, entry.at? 1 ≠ some (.obj params)) → entry' = entry

/-- The elements of the one document are those of the other, in the same order. -/
def KeepsElements (raw v : Json) : Prop :=
  ∃ elements elements', raw.get? "elements" = some (.obj elements) ∧
    v.get? "elements" = some (.obj elements') ∧
    List.Forall₂ (fun m m' => m'.1 = m.1 ∧ EntryKept m.2 m'.2) elements elements'

theorem EntryKept.refl (entry : Json) : EntryKept entry entry :=
  ⟨rfl, fun _ _ _ => rfl, fun _ => rfl⟩

/-- A description that becomes a remark, or goes, changes nothing else of an entry. -/
theorem entryKept_describeElement {entry : Json} (hentry : entry.Distinct) :
    EntryKept entry (describeElement entry) := by
  unfold describeElement
  split
  · rename_i kind params behind
    cases hentry with
    | arr hitems =>
      cases hitems (.obj params) (by simp) with
      | obj hparams =>
        refine ⟨rfl, fun key hdescription hinfo => ?_, fun hne => absurd rfl (hne params)⟩
        show (renameDescription params).lookup key = params.lookup key
        rw [lookup_renameDescription hparams, if_neg hinfo, if_neg hdescription]
  · exact .refl entry

theorem exists_run_one_two (h : migrate raw 1 2 = .ok v) :
    ∃ doc doc', raw = .obj doc ∧ oneToTwo doc = .ok doc' ∧ v = .obj doc' := by
  obtain ⟨doc, doc', rfl, hrun, rfl⟩ := exists_run_of_migrate h
  refine ⟨doc, doc', rfl, ?_, rfl⟩
  have hsteps : (oneToTwo doc >>= Except.ok) = .ok doc' := hrun
  obtain ⟨last, hlast, hdone⟩ := bind_eq_ok.1 hsteps
  cases hdone
  exact hlast

/-- The step joins the lattices: the main one stands where the further one of its name was. -/
theorem exists_merged (hdoc : (Table.keys doc).Nodup) (h : oneToTwo doc = .ok doc') :
    ∃ elements main, doc.lookup "elements" = some (.obj elements) ∧
      doc.lookup "lattice" = some main ∧ doc'.lookup "root" = some (.str mainLattice) ∧
      doc'.lookup "elements" = some (.obj (elements.map fun m => (m.1, describeElement m.2))) ∧
      ∀ name, lattice? (.obj doc') name =
        if name = mainLattice then some main else subLattice? (.obj doc) name := by
  obtain ⟨elements, subs, main, helements, hsubs, hmain⟩ := exists_of_oneToTwo hdoc h
  obtain ⟨_, hstep, -, hlookup⟩ := lookup_oneToTwo hdoc helements hsubs hmain
  rw [h] at hstep
  cases hstep
  refine ⟨elements, main, helements, hmain, hlookup "root", hlookup "elements", fun name => ?_⟩
  have hsub : subLattice? (.obj doc) name = subs.lookup name := by
    show ((doc.lookup "sub_lattices").bind fun t => t.get? name) = _
    rcases hsubs with ⟨hnone, rfl⟩ | hsome
    · rw [hnone]
      rfl
    · rw [hsome]
      rfl
  show ((doc'.lookup "lattices").bind fun t => t.get? name) = _
  rw [hlookup "lattices", hsub]
  exact Table.lookup_put _ _ _ _

theorem keepsLattices_iff (hmain : raw.get? "lattice" = some main)
    (hlattice : ∀ name, lattice? v name =
      if name = mainLattice then some main else subLattice? raw name) :
    KeepsLattices raw v ↔
      ∀ items, subLattice? raw mainLattice = some items → raw.get? "lattice" = some items := by
  constructor
  · intro hkeeps items hitems
    have hkept := hkeeps mainLattice items hitems
    rw [hlattice, if_pos rfl] at hkept
    exact hmain.trans hkept
  · intro hsame name items hitems
    rw [hlattice]
    split
    · rename_i hname
      subst hname
      exact hmain.symm.trans (hsame items hitems)
    · exact hitems

/-- The step from version 1 to 2 leaves the main lattice of a document as its root, every element
with its place, its tag and its parameters apart from the description and the remark, and under
every name but that of the root exactly the further lattices. So all of these are kept if and only
if none of them has that name, or has the items of the main lattice as well. -/
theorem keeps_of_migrate (hraw : raw.Distinct) (h : migrate raw 1 2 = .ok v) :
    KeepsMain raw v ∧ KeepsElements raw v ∧
    (∀ name, name ≠ mainLattice → lattice? v name = subLattice? raw name) ∧
    (KeepsLattices raw v ↔
      ∀ items, subLattice? raw mainLattice = some items → raw.get? "lattice" = some items) := by
  obtain ⟨doc, doc', rfl, hstep, rfl⟩ := exists_run_one_two h
  cases hraw with
  | obj hdoc hmembers =>
    obtain ⟨elements, main, helements, hmain, hroot, helements', hlattice⟩ :=
      exists_merged hdoc hstep
    refine ⟨⟨mainLattice, main, hroot, hmain, by rw [hlattice, if_pos rfl]⟩,
      ⟨elements, _, helements, helements', ?_⟩, fun name hname => ?_,
      keepsLattices_iff hmain hlattice⟩
    · cases hmembers _ (Table.mem_of_lookup helements) with
      | obj _ hentries =>
        rw [List.forall₂_map_right_iff, List.forall₂_same]
        exact fun m hm => ⟨rfl, entryKept_describeElement (hentries m hm)⟩
    · rw [hlattice, if_neg hname]

/-- The members of a document of version 1 with one element and the given lattices. -/
def driftMembers (subs : List (String × Json)) (main : List Json) : List (String × Json) :=
  [("version", .str "1.0"),
    ("elements", .obj [("D", .arr [.str "Drift", .obj [("description", .str "gap"),
      ("length", .num (.whole 1))]])]),
    ("sub_lattices", .obj subs), ("lattice", .arr main)]

theorem distinct_driftMembers {subs : List (String × Json)} {main : List Json}
    (hsubs : (Json.obj subs).Distinct) (hmain : ∀ v ∈ main, v.Distinct) :
    (Json.obj (driftMembers subs main)).Distinct := by
  have hparams : (Json.obj [("description", .str "gap"),
      ("length", .num (.whole 1))]).Distinct := by
    refine .obj (by decide) fun m hm => ?_
    rcases List.mem_pair.1 hm with rfl | rfl
    · exact .str _
    · exact .num _
  have hentry : (Json.arr [.str "Drift", .obj [("description", .str "gap"),
      ("length", .num (.whole 1))]]).Distinct := by
    refine .arr fun v hv => ?_
    rcases List.mem_pair.1 hv with rfl | rfl
    · exact .str _
    · exact hparams
  have hkeys : Table.keys (driftMembers subs main) =
      ["version", "elements", "sub_lattices", "lattice"] := rfl
  refine .obj (hkeys ▸ by decide) fun m hm => ?_
  simp only [driftMembers, List.mem_cons, List.not_mem_nil, or_false] at hm
  rcases hm with rfl | rfl | rfl | rfl
  · exact .str _
  · exact .obj (by decide) fun m hm => List.mem_singleton.1 hm ▸ hentry
  · exact hsubs
  · exact .arr hmain

/-- A further lattice, of two drifts. -/
def pairSubs (name : String) : List (String × Json) :=
  [(name, .arr [.str "D", .str "D"])]

theorem distinct_pairSubs (name : String) : (Json.obj (pairSubs name)).Distinct := by
  refine .obj (List.nodup_singleton _) fun m hm => ?_
  obtain rfl := List.mem_singleton.1 hm
  refine .arr fun v hv => ?_
  rcases List.mem_pair.1 hv with rfl | rfl <;> exact .str _

/-- A document of version 1 whose main lattice names a further one. -/
def namingMembers (name : String) : List (String × Json) :=
  driftMembers (pairSubs name) [.str name]

theorem distinct_namingMembers (name : String) : (Json.obj (namingMembers name)).Distinct :=
  distinct_driftMembers (distinct_pairSubs name) fun _ hv => List.mem_singleton.1 hv ▸ .str name

/-- `keeps_of_migrate` for a document whose further lattice has a name of its own. -/
theorem keeps_of_migrate_cell : ∃ v, migrate (.obj (namingMembers "CELL")) 1 2 = .ok v ∧
    KeepsMain (.obj (namingMembers "CELL")) v ∧ KeepsElements (.obj (namingMembers "CELL")) v ∧
    lattice? v "CELL" = some (.arr [.str "D", .str "D"]) ∧
    KeepsLattices (.obj (namingMembers "CELL")) v := by
  obtain ⟨v, hv⟩ : ∃ v, migrate (.obj (namingMembers "CELL")) 1 2 = .ok v := ⟨_, rfl⟩
  obtain ⟨hmain, helements, hother, hlattices⟩ :=
    keeps_of_migrate (distinct_namingMembers "CELL") hv
  exact ⟨v, hv, hmain, helements, hother "CELL" (by decide), hlattices.2 nofun⟩

/-- A further lattice that has the name already is lost, and what named it names the main lattice:
the step does not keep all lattices of a document. -/
theorem not_keepsLattices : ¬ ∀ doc v, (∀ m ∈ doc, m.1 ∈ formerKeys) → (Json.obj doc).Distinct →
    migrate (.obj doc) 1 2 = .ok v →
    KeepsLattices (.obj doc) v ∧ KeepsMain (.obj doc) v ∧ KeepsElements (.obj doc) v := by
  intro h
  have hkept := h (namingMembers mainLattice) _ (by decide) (distinct_namingMembers mainLattice) rfl
  have hlost : some (Json.arr [.str mainLattice]) = some (.arr [.str "D", .str "D"]) :=
    hkept.1 mainLattice _ rfl
  simp at hlost

end Beamline.Migration

import Beamline.Proofs.Bind
import Beamline.Proofs.Json.Reader
import Beamline.Proofs.Migration.Former

/-!
# The steps of a migration

* `lookup_renameDescription`, `lookup_oneToTwo` : the members behind a renaming and behind a step,
  key by key;
* `FormerObject.zeroToOne` : a document of version 0 becomes one of version 1;
* `FormerObject.oneToTwo` : a document of version 1 becomes one of version 2, which has a root;
* `Rooted.twoToThree` : and this becomes one of version 3;
* `FormerObject.migrate` : so a former document is migrated.
-/

namespace Beamline.Migration

open Validation

variable {doc elements subs : List (String × Json)} {main : List Json}

/-! ## Changing the elements -/

theorem mapElements_eq_ok {f : (name : String) → Json → Except Flaw Json}
    {elements' : List (String × Json)} (helements : doc.lookup "elements" = some (.obj elements))
    (hf : List.Forall₂ (fun m m' => m'.1 = m.1 ∧ f m.1 m.2 = .ok m'.2) elements elements') :
    mapElements f doc = .ok (Table.put "elements" (.obj elements') doc) := by
  unfold mapElements
  rw [helements]
  refine bind_eq_ok.2 ⟨elements', mapM_eq_ok.2 (hf.imp fun m m' h => ?_), rfl⟩
  exact bind_eq_ok.2 ⟨m'.2, h.2, by rw [← h.1]; rfl⟩

/-! ## Descriptions -/

/-- What the description in a table says, if it says anything. -/
def remark? (t : List (String × Json)) : Option String :=
  ((t.lookup "description").bind Json.text?).filter (!·.isEmpty)

theorem filter_isTelling {t : List (String × Json)}
    (ht : ∀ v, t.lookup "description" = some v → ∃ s, v = .str s) :
    (t.lookup "description").filter isTelling = (remark? t).map .str := by
  unfold remark?
  cases hv : t.lookup "description" with
  | none => rfl
  | some v =>
    obtain ⟨s, rfl⟩ := ht v hv
    cases hs : s.isEmpty <;> simp [Option.filter, isTelling, Json.text?, hs]

theorem lookup_renameDescription {t : List (String × Json)} (ht : (Table.keys t).Nodup)
    (key : String) : (renameDescription t).lookup key =
      if key = "info" then ((t.lookup "description").filter isTelling).or (t.lookup "info")
      else if key = "description" then none
      else t.lookup key := by
  unfold renameDescription Table.take?
  cases hv : t.lookup "description" with
  | none =>
    show t.lookup key = _
    split
    · simp [*]
    · split <;> simp [*]
  | some v =>
    dsimp only [Option.map_some]
    cases htelling : isTelling v with
    | true => simp [Table.lookup_put, Table.lookup_drop ht, Option.filter, htelling]
    | false =>
      rw [if_neg (by simp), Table.lookup_drop ht]
      by_cases hkey : key = "info" <;> simp [hkey, Option.filter, htelling]

theorem nodup_keys_renameDescription {t : List (String × Json)} (ht : (Table.keys t).Nodup) :
    (Table.keys (renameDescription t)).Nodup := by
  unfold renameDescription Table.take?
  cases t.lookup "description" with
  | none => exact ht
  | some v =>
    dsimp only [Option.map_some]
    split
    · exact Table.nodup_keys_put (Table.nodup_keys_drop ht _) _ _
    · exact Table.nodup_keys_drop ht _

/-- Parameters with the description, if it says anything, as remark. -/
structure Renamed (params params' : List (String × Json)) : Prop where
  nodup : (Table.keys params').Nodup
  lookup : ∀ key, params'.lookup key =
    if key = "info" then (remark? params).map .str
    else if key = "description" then none
    else params.lookup key

section Parameters

variable {k : Kind} {params params' : List (String × Json)}

theorem FormerParameters.renamed (h : FormerParameters k params)
    (hnodup : (Table.keys params).Nodup) : Renamed params (renameDescription params) where
  nodup := nodup_keys_renameDescription hnodup
  lookup key := by
    have hinfo : params.lookup "info" = none := Table.lookup_eq_none.2 h.unremarked
    rw [lookup_renameDescription hnodup, hinfo, Option.or_none,
      filter_isTelling fun v hv => h.description v (Table.mem_of_lookup hv)]

theorem Renamed.mem_iff (h : Renamed params params') (hnodup : (Table.keys params).Nodup)
    {key : String} (hkey : key ≠ "info") {v : Json} :
    (key, v) ∈ params' ↔ (key, v) ∈ params.filter fun m => m.1 != "description" := by
  have hlookup := h.lookup key
  rw [if_neg hkey] at hlookup
  rw [List.mem_filter, bne_iff_ne]
  constructor
  · intro hmem
    rw [Table.lookup_of_mem h.nodup hmem] at hlookup
    split at hlookup
    · cases hlookup
    · rename_i hne
      exact ⟨Table.mem_of_lookup hlookup.symm, hne⟩
  · rintro ⟨hmem, hne⟩
    rw [if_neg hne, Table.lookup_of_mem hnodup hmem] at hlookup
    exact Table.mem_of_lookup hlookup

theorem Renamed.exists_remark (h : Renamed params params') {v : Json} (hv : ("info", v) ∈ params') :
    ∃ s, v = .str s := by
  have hlookup := h.lookup "info"
  rw [if_pos rfl, Table.lookup_of_mem h.nodup hv] at hlookup
  obtain ⟨s, -, hs⟩ := Option.map_eq_some_iff.1 hlookup.symm
  exact ⟨s, hs.symm⟩

/-- Renamed parameters are those of an element of the current version. -/
theorem FormerParameters.wellFormed (h : FormerParameters k params)
    (hnodup : (Table.keys params).Nodup) (hrenamed : Renamed params params') :
    WellFormedParameters False k params' := by
  refine ⟨fun s hs hrequired => ?_, fun s hs v hv => ?_, fun s hs hlength n hn => ?_,
    .inr fun m hm => ?_⟩
  · obtain ⟨v, hv⟩ := h.own.required s hs hrequired
    have hinfo : s.parameter.name ≠ "info" := by
      intro heq
      rw [heq, List.mem_filter] at hv
      exact h.unremarked (Table.mem_keys.2 ⟨v, hv.1⟩)
    exact ⟨v, (hrenamed.mem_iff hnodup hinfo).2 hv⟩
  · by_cases hinfo : s.parameter.name = "info"
    · rw [hinfo] at hv
      have hform : s.parameter.form = .text := by
        revert hinfo
        cases s.parameter <;> decide
      rw [hform]
      exact hrenamed.exists_remark hv
    · exact h.own.fits s hs v ((hrenamed.mem_iff hnodup hinfo).1 hv)
  · have hinfo : s.parameter.name ≠ "info" := by
      rw [hlength]
      decide
    exact h.own.length s hs hlength n ((hrenamed.mem_iff hnodup hinfo).1 hn)
  · by_cases hinfo : m.1 = "info"
    · exact ⟨⟨.info, false⟩, List.mem_append_right _ List.mem_cons_self, hinfo.symm⟩
    · exact h.own.known.elim False.elim fun hknown =>
        hknown m ((hrenamed.mem_iff hnodup hinfo).1 hm)

theorem Renamed.readable (h : Renamed params params') {room : Nat}
    (hr : Json.Readable (room + 1) (.obj params)) : Json.Readable (room + 1) (.obj params') := by
  refine ⟨h.nodup, fun m hm => ?_⟩
  obtain ⟨key, v⟩ := m
  by_cases hinfo : key = "info"
  · subst hinfo
    obtain ⟨s, rfl⟩ := h.exists_remark hm
    rw [Json.Readable.eq_def]
    trivial
  · exact hr.2 _ (List.mem_filter.1 ((h.mem_iff hr.1 hinfo).1 hm)).1

end Parameters

/-! ## From version 0 to 1 -/

theorem spelled_text {n : Nat} (hn : n < 2 ^ 32) :
    (Version.mk n 0).Spelled (Version.mk n 0).text :=
  Version.parse?_eq_some_iff.1 (Version.parse?_text hn (Nat.two_pow_pos 32))

theorem readable_drop {t : List (String × Json)} {room : Nat} (key : String)
    (hr : Json.Readable (room + 1) (.obj t)) : Json.Readable (room + 1) (.obj (Table.drop key t)) :=
  ⟨Table.nodup_keys_drop hr.1 key, fun m hm =>
    hr.2 m (List.mem_filter.1 ((Table.drop_perm hr.1 key).mem_iff.1 hm)).1⟩

/-- The order of parameters does not matter. -/
theorem FormerParameters.of_perm {k : Kind} {params params' : List (String × Json)}
    (h : FormerParameters k params) (hperm : params'.Perm params) : FormerParameters k params' := by
  have hmem : ∀ m, m ∈ params'.filter (fun m => m.1 != "description") ↔
      m ∈ params.filter fun m => m.1 != "description" := fun m => (hperm.filter _).mem_iff
  obtain ⟨⟨hrequired, hfits, hlength, hknown⟩, hdescription, hinfo⟩ := h
  refine ⟨⟨?_, ?_, ?_, ?_⟩, fun v hv => hdescription v (hperm.mem_iff.1 hv),
    fun hmem' => hinfo ((hperm.map Prod.fst).mem_iff.1 hmem')⟩
  · simpa only [hmem] using hrequired
  · simpa only [hmem] using hfits
  · simpa only [hmem] using hlength
  · simpa only [hmem] using hknown

/-- The entry of an element of version 0 is split into one of version 1. -/
theorem FormerElement.exists_splitType {name : String} {entry : Json}
    (h : FormerElement 0 name entry) {room : Nat} (hr : Json.Readable room entry) :
    ∃ entry', splitType name entry = .ok entry' ∧ FormerElement 1 name entry' ∧
      Json.Readable (room + 1) entry' := by
  obtain ⟨tag, params, k, hentry, htag, hparams⟩ := h.content
  cases hentry with
  | @embedded _ entry htype =>
    cases room with
    | zero => exact hr.elim
    | succ room =>
      have hperm := Table.drop_perm hr.1 "type"
      refine ⟨.arr [.str tag, .obj (Table.drop "type" entry)], ?_, ⟨h.named, ?_⟩, ?_⟩
      · simp only [splitType, Json.members?, Table.take?, htype, Option.map_some]
      · exact ⟨tag, _, k, .paired, htag, hparams.of_perm hperm⟩
      · exact List.forall_mem_cons.2 ⟨trivial, List.forall_mem_singleton.2 (readable_drop _ hr)⟩

/-- A document with a new version entry and new elements is one of version 1 if the elements are. -/
theorem FormerObject.renewed {doc' elements' : List (String × Json)}
    (h : FormerObject 0 doc elements subs main)
    (hlookup : ∀ key, doc'.lookup key = if key = "version" then some (versionEntry 1)
      else if key = "elements" then some (.obj elements') else doc.lookup key)
    (hknown : ∀ m ∈ doc', m.1 ∈ formerKeys) (hkeys : Table.keys elements' = Table.keys elements)
    (helement : ∀ name entry, (name, entry) ∈ elements' → FormerElement 1 name entry) :
    FormerObject 1 doc' elements' subs main where
  early := le_rfl
  version := .inr ⟨_, 0, hlookup "version", spelled_text (by decide)⟩
  known := hknown
  texts := by
    intro key hkey v hv
    refine h.texts key hkey v ?_
    rw [hlookup] at hv
    rcases List.mem_pair.1 hkey with rfl | rfl
    · exact hv
    · exact hv
  elementTable := hlookup "elements"
  subTable := by simpa [hlookup] using h.subTable
  mainLine := by simpa [hlookup] using h.mainLine
  element := helement
  line := h.line
  items := h.items
  distinct := hkeys ▸ h.distinct
  reserved := hkeys ▸ h.reserved
  defined := hkeys ▸ h.defined
  acyclic := h.acyclic

/-- A document of version 0 becomes one of version 1. -/
theorem FormerObject.zeroToOne (h : FormerObject 0 doc elements subs main) {room : Nat}
    (hr : Json.Readable (room + 3) (.obj doc)) :
    ∃ doc' elements', zeroToOne doc = .ok doc' ∧ FormerObject 1 doc' elements' subs main ∧
      Json.Readable (room + 4) (.obj doc') ∧
      (∀ key ∈ ["name", "description"], doc'.lookup key = doc.lookup key) ∧
      List.Forall₂ (fun m m' => m'.1 = m.1 ∧ splitType m.1 m.2 = .ok m'.2) elements elements' := by
  have helements : Json.Readable (room + 2) (.obj elements) :=
    hr.2 _ (Table.mem_of_lookup h.elementTable)
  have hentries : ∀ m ∈ elements, ∃ m' : String × Json,
      (m'.1 = m.1 ∧ splitType m.1 m.2 = .ok m'.2) ∧
        FormerElement 1 m'.1 m'.2 ∧ Json.Readable (room + 2) m'.2 := by
    intro m hm
    obtain ⟨entry, hsplit, hentry, hread⟩ :=
      (h.element m.1 m.2 hm).exists_splitType (helements.2 m hm)
    exact ⟨(m.1, entry), ⟨rfl, hsplit⟩, hentry, hread⟩
  obtain ⟨elements', hall⟩ := exists_forall₂ hentries
  have hsplit := hall.imp fun _ _ h => h.1
  have hnew := forall_of_forall₂ (hall.imp fun _ _ h => h.2)
  have hkeys : Table.keys elements' = Table.keys elements :=
    (map_eq_map_of_forall₂ (hsplit.imp fun _ _ h => h.1.symm)).symm
  refine ⟨_, elements', bind_eq_ok.2 ⟨_, mapElements_eq_ok h.elementTable hsplit, rfl⟩,
    h.renewed (fun key => ?_) (fun m hm => ?_) hkeys fun name entry hm => (hnew _ hm).1,
    ⟨Table.nodup_keys_put (Table.nodup_keys_put hr.1 _ _) _ _, fun m hm => ?_⟩,
    fun key hkey => ?_, hsplit⟩
  · rw [Table.lookup_put, Table.lookup_put]
  · rcases Table.mem_of_mem_put hm with rfl | hm
    · exact List.mem_cons_self
    rcases Table.mem_of_mem_put hm with rfl | hm
    · simp [formerKeys]
    · exact h.known m hm
  · rcases Table.mem_of_mem_put hm with rfl | hm
    · trivial
    rcases Table.mem_of_mem_put hm with rfl | hm
    · exact ⟨hkeys ▸ helements.1, fun m hm => (hnew m hm).2⟩
    · exact (hr.2 m hm).mono (by omega)
  · rcases List.mem_pair.1 hkey with rfl | rfl <;> simp [Table.lookup_put]

/-! ## From version 1 to 2 -/

theorem lookup_renameName (hdoc : (Table.keys doc).Nodup) (key : String) :
    (renameName doc).lookup key =
      if key = "title" then (doc.lookup "name").or (doc.lookup "title")
      else if key = "name" then none
      else doc.lookup key := by
  unfold renameName Table.take?
  cases hv : doc.lookup "name" with
  | none =>
    show doc.lookup key = _
    split
    · simp [*]
    · split <;> simp [*]
  | some v => simp [Table.lookup_put, Table.lookup_drop hdoc]

theorem nodup_keys_renameName (hdoc : (Table.keys doc).Nodup) :
    (Table.keys (renameName doc)).Nodup := by
  unfold renameName Table.take?
  cases doc.lookup "name" with
  | none => exact hdoc
  | some v => exact Table.nodup_keys_put (Table.nodup_keys_drop hdoc _) _ _

theorem exists_takeSubLattices (hdoc : (Table.keys doc).Nodup)
    (hsubs : doc.lookup "sub_lattices" = none ∧ subs = [] ∨
      doc.lookup "sub_lattices" = some (.obj subs)) :
    ∃ rest, takeSubLattices doc = .ok (subs, rest) ∧ (Table.keys rest).Nodup ∧
      ∀ key, rest.lookup key = if key = "sub_lattices" then none else doc.lookup key := by
  unfold takeSubLattices Table.take?
  rcases hsubs with ⟨hnone, rfl⟩ | hsome
  · refine ⟨doc, by rw [hnone]; rfl, hdoc, fun key => ?_⟩
    split
    · rename_i hkey
      rw [hkey, hnone]
    · rfl
  · exact ⟨_, by rw [hsome]; rfl, Table.nodup_keys_drop hdoc _, Table.lookup_drop hdoc _⟩

/-- The members of a document after the step from version 1 to 2. -/
theorem lookup_oneToTwo {main : Json} (hdoc : (Table.keys doc).Nodup)
    (helements : doc.lookup "elements" = some (.obj elements))
    (hsubs : doc.lookup "sub_lattices" = none ∧ subs = [] ∨
      doc.lookup "sub_lattices" = some (.obj subs)) (hmain : doc.lookup "lattice" = some main) :
    ∃ doc', oneToTwo doc = .ok doc' ∧ (Table.keys doc').Nodup ∧ ∀ key, doc'.lookup key =
      if key = "version" then some (versionEntry 2)
      else if key = "elements" then some (.obj (elements.map fun m => (m.1, describeElement m.2)))
      else if key = "info" then
        ((doc.lookup "description").filter isTelling).or (doc.lookup "info")
      else if key = "description" then none
      else if key = "root" then some (.str mainLattice)
      else if key = "lattices" then some (.obj (Table.put mainLattice main subs))
      else if key = "lattice" then none
      else if key = "sub_lattices" then none
      else if key = "title" then (doc.lookup "name").or (doc.lookup "title")
      else if key = "name" then none
      else doc.lookup key := by
  have hname := lookup_renameName hdoc
  have hrenamed : (renameName doc).lookup "sub_lattices" = none ∧ subs = [] ∨
      (renameName doc).lookup "sub_lattices" = some (.obj subs) := by
    simpa [hname] using hsubs
  obtain ⟨rest, htake, hrest, hlookup⟩ :=
    exists_takeSubLattices (nodup_keys_renameName hdoc) hrenamed
  have hlattice : rest.lookup "lattice" = some main := by simp [hlookup, hname, hmain]
  have htakeMain : takeMain rest = .ok (main, Table.drop "lattice" rest) := by
    rw [takeMain, Table.take?, hlattice]
    rfl
  -- the document with its lattices joined, before its descriptions change
  obtain ⟨joined, hjoined⟩ : ∃ joined, joined = Table.put "root" (.str mainLattice)
    (Table.put "lattices" (.obj (Table.put mainLattice main subs))
      (Table.drop "lattice" rest)) := ⟨_, rfl⟩
  have hnodup : (Table.keys joined).Nodup := by
    rw [hjoined]
    exact Table.nodup_keys_put (Table.nodup_keys_put (Table.nodup_keys_drop hrest _) _ _) _ _
  have hmembers : ∀ key, joined.lookup key =
      if key = "root" then some (.str mainLattice)
      else if key = "lattices" then some (.obj (Table.put mainLattice main subs))
      else if key = "lattice" then none
      else if key = "sub_lattices" then none
      else if key = "title" then (doc.lookup "name").or (doc.lookup "title")
      else if key = "name" then none
      else doc.lookup key := by
    intro key
    rw [hjoined, Table.lookup_put, Table.lookup_put, Table.lookup_drop hrest, hlookup, hname]
  have hdescribed := lookup_renameDescription hnodup
  have helements' : (renameDescription joined).lookup "elements" = some (.obj elements) := by
    simp [hdescribed, hmembers, helements]
  have hmap : mapElements (fun _ entry => .ok (describeElement entry)) (renameDescription joined) =
      .ok (Table.put "elements" (.obj (elements.map fun m => (m.1, describeElement m.2)))
        (renameDescription joined)) := by
    refine mapElements_eq_ok helements' ?_
    rw [List.forall₂_map_right_iff, List.forall₂_same]
    exact fun m _ => ⟨rfl, rfl⟩
  refine ⟨Table.put "version" (versionEntry 2) (Table.put "elements"
    (.obj (elements.map fun m => (m.1, describeElement m.2))) (renameDescription joined)),
    ?_, ?_, fun key => ?_⟩
  · subst hjoined
    exact bind_eq_ok.2 ⟨_, htake, bind_eq_ok.2 ⟨_, htakeMain, bind_eq_ok.2 ⟨_, hmap, rfl⟩⟩⟩
  · exact Table.nodup_keys_put
      (Table.nodup_keys_put (nodup_keys_renameDescription hnodup) _ _) _ _
  · rw [Table.lookup_put, Table.lookup_put, hdescribed, hmembers "description", hmembers "info",
      hmembers key]
    rfl

/-- What a document of version 2 or 3 says whose main lattice is its root. -/
structure Rooted (n : Nat) (doc : List (String × Json)) (title info : Option String)
    (elements lattices : List (String × Json)) : Prop where
  nodup : (Table.keys doc).Nodup
  version : doc.lookup "version" = some (versionEntry n)
  title : doc.lookup "title" = title.map .str
  info : doc.lookup "info" = info.map .str
  root : doc.lookup "root" = some (.str mainLattice)
  elementTable : doc.lookup "elements" = some (.obj elements)
  latticeTable : doc.lookup "lattices" = some (.obj lattices)
  known : ∀ m ∈ doc, m.1 ∈ documentKeys

/-- The name of a former document. -/
def name? (doc : List (String × Json)) : Option String :=
  (doc.lookup "name").bind Json.text?

/-- A document of version 1 becomes one of version 2. -/
theorem FormerObject.oneToTwo (h : FormerObject 1 doc elements subs main)
    (hdoc : (Table.keys doc).Nodup) : ∃ doc', oneToTwo doc = .ok doc' ∧
      Rooted 2 doc' (name? doc) (remark? doc)
        (elements.map fun m => (m.1, describeElement m.2)) (formerLines subs main) := by
  obtain ⟨doc', hstep, hnodup, hlookup⟩ :=
    lookup_oneToTwo hdoc h.elementTable h.subTable h.mainLine
  have habsent : ∀ key ∉ formerKeys, doc.lookup key = none := by
    intro key hkey
    rw [Table.lookup_eq_none]
    intro hmem
    obtain ⟨v, hv⟩ := Table.mem_keys.1 hmem
    exact hkey (h.known _ hv)
  have htitle : (doc.lookup "name") = (name? doc).map .str := by
    unfold name?
    cases hv : doc.lookup "name" with
    | none => rfl
    | some v =>
      obtain ⟨s, rfl⟩ := h.texts "name" List.mem_cons_self v hv
      rfl
  have hinfo := filter_isTelling (h.texts "description" (by simp))
  refine ⟨doc', hstep, hnodup, ?_, ?_, ?_, ?_, ?_, ?_, fun m hm => ?_⟩
  · rw [hlookup]
    rfl
  · rw [hlookup, ← htitle]
    simp [habsent "title" (by decide)]
  · rw [hlookup, ← hinfo]
    simp [habsent "info" (by decide)]
  · rw [hlookup]
    rfl
  · rw [hlookup]
    rfl
  · rw [hlookup, Table.put_of_notMem h.reserved.2]
    rfl
  · by_contra hkey
    have hvalue := Table.lookup_of_mem hnodup hm
    rw [hlookup] at hvalue
    simp only [documentKeys, List.mem_cons, List.not_mem_nil, or_false, not_or] at hkey
    simp only [hkey, if_false] at hvalue
    split_ifs at hvalue
    rw [habsent m.1 (by simp_all [formerKeys])] at hvalue
    cases hvalue

/-! ## From version 2 to 3 -/

/-- A document of version 2 becomes one of version 3 if its elements do. -/
theorem Rooted.twoToThree {title info : Option String} {elements' lattices : List (String × Json)}
    (h : Rooted 2 doc title info elements lattices)
    (helements : List.Forall₂ (fun m m' => m'.1 = m.1 ∧ renameKind m.1 m.2 = .ok m'.2) elements
      elements') :
    ∃ doc', twoToThree doc = .ok doc' ∧ Rooted 3 doc' title info elements' lattices := by
  refine ⟨_, bind_eq_ok.2 ⟨_, mapElements_eq_ok h.elementTable helements, rfl⟩,
    Table.nodup_keys_put (Table.nodup_keys_put h.nodup _ _) _ _, ?_, ?_, ?_, ?_, ?_, ?_,
    fun m hm => ?_⟩
  · rw [Table.lookup_put, if_pos rfl]
  · simpa [Table.lookup_put] using h.title
  · simpa [Table.lookup_put] using h.info
  · simpa [Table.lookup_put] using h.root
  · simp [Table.lookup_put]
  · simpa [Table.lookup_put] using h.latticeTable
  · rcases Table.mem_of_mem_put hm with rfl | hm
    · exact List.mem_cons_self
    rcases Table.mem_of_mem_put hm with rfl | hm
    · simp [documentKeys]
    · exact h.known m hm

/-! ## All steps -/

/-- The entry `m` of version `n` is carried over to the entry `m'` of the current version: with its
name, the present name of its kind, and its parameters but for the description. -/
structure Carried (n : Nat) (m m' : String × Json) : Prop where
  name : m'.1 = m.1
  content : ∃ tag params k params', FormerEntry n tag params m.2 ∧ formerTags.lookup tag = some k ∧
    m'.2 = .arr [.str k.tag, .obj params'] ∧ WellFormedParameters False k params' ∧
    Renamed params params'

/-- The entry of an element of version 1 is carried over. -/
theorem FormerElement.exists_renameKind {name : String} {entry : Json}
    (h : FormerElement 1 name entry) {room : Nat} (hr : Json.Readable room entry) :
    ∃ entry', renameKind name (describeElement entry) = .ok entry' ∧
      Carried 1 (name, entry) (name, entry') ∧ Json.Readable room entry' := by
  obtain ⟨tag, params, k, hentry, htag, hparams⟩ := h.content
  cases hentry
  obtain ⟨room, rfl, hobj⟩ := hr.object_of_pair
  have hrenamed := hparams.renamed hobj.1
  refine ⟨.arr [.str k.tag, .obj (renameDescription params)], ?_, ⟨rfl, _, _, k, _, .paired, htag,
    rfl, hparams.wellFormed hobj.1 hrenamed, hrenamed⟩, ?_⟩
  · simp only [describeElement, renameKind, Json.text?, Option.getD_some, htag]
  · exact List.forall_mem_cons.2
      ⟨trivial, List.forall_mem_singleton.2 (hrenamed.readable hobj)⟩

/-- What is carried over from the pair of an element of version 1 is carried over from the entry
that was split into it. -/
theorem Carried.of_splitType {m m₁ m' : String × Json} (h : Carried 1 m₁ m') (hname : m₁.1 = m.1)
    (hsplit : splitType m.1 m.2 = .ok m₁.2) {room : Nat} (hr : Json.Readable room m.2) :
    Carried 0 m m' := by
  obtain ⟨name, entry⟩ := m
  obtain ⟨name₁, entry₁⟩ := m₁
  obtain ⟨tag, params, k, params', hentry, htag, heq, hwell, hrenamed⟩ := h.content
  cases hentry
  cases entry with
  | obj all =>
    have hnodup : (Table.keys all).Nodup := by
      cases room with
      | zero => exact hr.elim
      | succ room => exact hr.1
    simp only [splitType, Json.members?, Table.take?] at hsplit
    cases htype : all.lookup "type" with
    | none =>
      rw [htype] at hsplit
      cases hsplit
    | some kind =>
      rw [htype] at hsplit
      cases hsplit
      have hlookup := Table.lookup_of_perm (Table.nodup_keys_drop hnodup "type")
        (Table.drop_perm hnodup "type")
      refine ⟨h.name.trans hname, tag, _, k, params', .embedded htype, htag, heq, hwell,
        hrenamed.nodup, fun key => ?_⟩
      rw [hrenamed.lookup, remark?, remark?, hlookup, hlookup]
  | _ => cases hsplit

/-- A document of version 1 is brought to version 3. -/
theorem FormerObject.exists_run (h : FormerObject 1 doc elements subs main) {room : Nat}
    (hr : Json.Readable (room + 2) (.obj doc)) : ∃ doc' elements', run 1 3 doc = .ok doc' ∧
      Rooted 3 doc' (name? doc) (remark? doc) elements' (formerLines subs main) ∧
      List.Forall₂ (fun m m' => Carried 1 m m' ∧ Json.Readable room m'.2) elements elements' := by
  have helements : Json.Readable (room + 1) (.obj elements) :=
    hr.2 _ (Table.mem_of_lookup h.elementTable)
  have hentries : ∀ m ∈ elements, ∃ m' : String × Json,
      (m'.1 = m.1 ∧ renameKind m.1 (describeElement m.2) = .ok m'.2) ∧
        Carried 1 m m' ∧ Json.Readable room m'.2 := by
    intro m hm
    obtain ⟨entry, hrename, hcarried, hread⟩ :=
      (h.element m.1 m.2 hm).exists_renameKind (helements.2 m hm)
    exact ⟨(m.1, entry), ⟨rfl, hrename⟩, hcarried, hread⟩
  obtain ⟨elements', hall⟩ := exists_forall₂ hentries
  obtain ⟨doc₂, htwo, hrooted⟩ := h.oneToTwo hr.1
  obtain ⟨doc₃, hthree, hrooted⟩ :=
    hrooted.twoToThree (List.forall₂_map_left_iff.2 (hall.imp fun _ _ h => h.1))
  exact ⟨doc₃, elements', bind_eq_ok.2 ⟨_, htwo, bind_eq_ok.2 ⟨_, hthree, rfl⟩⟩, hrooted,
    hall.imp fun _ _ h => h.2⟩

theorem FormerObject.sourceVersion_eq {n : Nat} (h : FormerObject n doc elements subs main) :
    sourceVersion (.obj doc) = .ok n := by
  have hget : (Json.obj doc).get? "version" = doc.lookup "version" := rfl
  rw [sourceVersion, hget]
  rcases h.version with ⟨hnone, rfl⟩ | ⟨text, minor, hsome, hspelled⟩
  · rw [hnone]
  · rw [hsome]
    simp only [Version.parse?_eq_some_iff.2 hspelled]

/-- A former document is brought to version 3: its main lattice joins the others as root, its name
and its description become title and remark, and its elements are carried over in their order. -/
theorem FormerObject.migrate {n : Nat} (h : FormerObject n doc elements subs main) {room : Nat}
    (hr : Json.Readable (room + 3) (.obj doc)) :
    ∃ doc' elements', migrateToCurrent (.obj doc) = .ok (.obj doc') ∧
      Rooted 3 doc' (name? doc) (remark? doc) elements' (formerLines subs main) ∧
      List.Forall₂ (fun m m' => Carried n m m' ∧ Json.Readable (room + 2) m'.2) elements
        elements' := by
  have hsource := h.sourceVersion_eq
  have hcurrent : ∀ doc', run n 3 doc = .ok doc' →
      migrateToCurrent (.obj doc) = .ok (.obj doc') := by
    intro doc' hrun
    refine bind_eq_ok.2 ⟨n, hsource, ?_⟩
    have hrange : ¬ (Version.current.major < n ∨
        Version.current.major < Version.current.major) := by
      have := h.early
      simp only [Version.current]
      omega
    simp only [Beamline.migrate, if_neg hrange, Json.members?]
    exact map_eq_ok.2 ⟨doc', hrun, rfl⟩
  have hcases : n = 1 ∨ n = 0 := by
    have := h.early
    omega
  rcases hcases with rfl | rfl
  · obtain ⟨doc', elements', hrun, hrooted, hall⟩ := h.exists_run hr
    exact ⟨doc', elements', hcurrent doc' hrun, hrooted,
      hall.imp fun _ _ h => ⟨h.1, h.2.mono (by omega)⟩⟩
  · obtain ⟨doc₁, elements₁, hone, hobject, hread, hsame, hsplit⟩ := h.zeroToOne hr
    obtain ⟨doc', elements', hrun, hrooted, hall⟩ := hobject.exists_run hread
    have hname : name? doc₁ = name? doc := by
      rw [name?, name?, hsame "name" (by simp)]
    have hremark : remark? doc₁ = remark? doc := by
      rw [remark?, remark?, hsame "description" (by simp)]
    rw [hname, hremark] at hrooted
    have helements : Json.Readable (room + 2) (.obj elements) :=
      hr.2 _ (Table.mem_of_lookup h.elementTable)
    refine ⟨doc', elements', hcurrent doc' (bind_eq_ok.2 ⟨doc₁, hone, hrun⟩), hrooted, ?_⟩
    refine forall₂_comp (fun m m₁ m' h₁ h => ?_)
      ((List.forall₂_and_left elements elements₁).2 ⟨helements.2, hsplit⟩) hall
    exact ⟨h.1.of_splitType h₁.2.1 h₁.2.2 h₁.1, h.2⟩

end Beamline.Migration

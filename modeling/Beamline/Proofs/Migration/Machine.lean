import Beamline.Proofs.Document.Expansion
import Beamline.Proofs.Document.Retention
import Beamline.Proofs.Migration.Steps

/-!
# The machine of a former document

* `Migrated` : an element is what an entry of a former version describes;
* `FormerObject.wellFormed` : a migrated document is well formed;
* `FormerObject.expand_eq` : its lattices are expanded to what they stood for;
* `migrateToCurrent_former` : a former document is migrated to a text that decodes to its machine.
-/

namespace Beamline.Migration

open Validation

variable {n : Nat} {doc doc' elements elements' subs : List (String × Json)} {main : List Json}
  {d : Document}

/-! ## The migrated document is well formed -/

theorem keys_formerLines (subs : List (String × Json)) (main : List Json) :
    Table.keys (formerLines subs main) = Table.keys subs ++ [mainLattice] :=
  Table.keys_append _ _

/-- The main lattice is not named in any lattice, so it changes nothing about which lattices hold
each other. -/
theorem FormerObject.acyclic_formerLines (h : FormerObject n doc elements subs main)
    (name : String) : ¬ Relation.TransGen (Nests (formerLines subs main)) name name := by
  have hnamed : ∀ {a b : String}, Nests (formerLines subs main) a b → b ∈ Table.keys subs := by
    rintro a b ⟨items, hlookup, hoccurs, hb⟩
    rw [keys_formerLines, List.mem_append, List.mem_singleton] at hb
    refine hb.resolve_right fun hmain => ?_
    subst hmain
    exact (h.defined a items (Table.mem_of_lookup hlookup) _ hoccurs).elim h.reserved.1 h.reserved.2
  have hnests : ∀ {a b : String}, a ∈ Table.keys subs → Nests (formerLines subs main) a b →
      Nests subs a b := by
    rintro a b ha hab
    have hb := hnamed hab
    obtain ⟨items, hlookup, hoccurs, -⟩ := hab
    obtain ⟨v, hv⟩ := Table.exists_lookup ha
    rw [formerLines, List.lookup_append, hv] at hlookup
    exact ⟨items, hv.trans hlookup, hoccurs, hb⟩
  have hreach : ∀ {a b : String}, a ∈ Table.keys subs →
      Relation.TransGen (Nests (formerLines subs main)) a b →
      b ∈ Table.keys subs ∧ Relation.TransGen (Nests subs) a b := by
    intro a b ha hab
    induction hab with
    | single hb => exact ⟨hnamed hb, .single (hnests ha hb)⟩
    | tail _ hc ih => exact ⟨hnamed hc, .tail ih.2 (hnests ih.1 hc)⟩
  intro hcycle
  obtain ⟨b, -, hb⟩ := Relation.TransGen.tail'_iff.1 hcycle
  exact h.acyclic name (hreach (hnamed hb) hcycle).2

/-- The members of a former document that was migrated are well formed. -/
theorem FormerObject.wellFormed (h : FormerObject n doc elements subs main)
    {title info : Option String}
    (hrooted : Rooted 3 doc' title info elements' (formerLines subs main))
    (hcarried : List.Forall₂ (Carried n) elements elements') :
    WellFormedObject .standard doc' ⟨3, 0⟩ elements' (formerLines subs main) := by
  have hkeys : Table.keys elements' = Table.keys elements :=
    (map_eq_map_of_forall₂ (hcarried.imp fun _ _ h => h.name.symm)).symm
  refine ⟨⟨_, hrooted.version, spelled_text (by decide)⟩, rfl, hrooted.elementTable,
    hrooted.latticeTable, fun key hkey v hv => ?_, .inr (.inr hrooted.known),
    fun name entry hm => ?_, fun name entry hm => ?_, fun name hname => ?_,
    fun name items hm s hs => ?_, fun name hname => ?_, h.acyclic_formerLines⟩
  · have htext : ∃ o : Option String, doc'.lookup key = o.map .str := by
      simp only [List.mem_cons, List.not_mem_nil, or_false] at hkey
      rcases hkey with rfl | rfl | rfl
      · exact ⟨title, hrooted.title⟩
      · exact ⟨info, hrooted.info⟩
      · exact ⟨some mainLattice, hrooted.root⟩
    obtain ⟨o, ho⟩ := htext
    rw [ho] at hv
    obtain ⟨s, -, hs⟩ := Option.map_eq_some_iff.1 hv
    exact ⟨s, hs.symm⟩
  · obtain ⟨m, hm, hname, tag, params, k, params', -, -, hentry, hparams, -⟩ :=
      exists_of_mem_right hcarried hm
    have hknown := hparams.known.resolve_left id
    refine ⟨?_, k, params', hentry, { hparams with known := .inr hknown }⟩
    rw [show name = m.1 from hname]
    exact (h.element m.1 m.2 hm).named
  · have hline : name ≠ "" ∧ ∃ items, entry = .arr items := by
      rcases List.mem_append.1 hm with hm' | hm'
      · exact h.line name entry hm'
      · cases List.mem_singleton.1 hm'
        exact ⟨by decide, main, rfl⟩
    obtain ⟨hname, items, rfl⟩ := hline
    exact ⟨hname, items, rfl, h.items name items hm, nofun, nofun⟩
  · rw [hkeys]
    rw [keys_formerLines, List.mem_append, List.mem_singleton] at hname
    rcases hname with hname | rfl
    · exact h.distinct name hname
    · exact h.reserved.1
  · rw [hkeys, keys_formerLines, List.mem_append]
    exact (h.defined name items hm s hs).imp id .inl
  · rw [hrooted.root] at hname
    cases hname
    rw [keys_formerLines]
    exact List.mem_append_right _ List.mem_cons_self

theorem FormerObject.readable_subs (h : FormerObject n doc elements subs main) {room : Nat}
    (hr : Json.Readable (room + 2) (.obj doc)) : Json.Readable (room + 1) (.obj subs) := by
  rcases h.subTable with ⟨-, rfl⟩ | hsubs
  · exact ⟨List.nodup_nil, fun m hm => absurd hm List.not_mem_nil⟩
  · exact hr.2 _ (Table.mem_of_lookup hsubs)

theorem FormerObject.readable_formerLines (h : FormerObject n doc elements subs main) {room : Nat}
    (hr : Json.Readable (room + 2) (.obj doc)) :
    Json.Readable (room + 2) (.obj (formerLines subs main)) := by
  have hsubs := h.readable_subs hr
  have hmain : Json.Readable (room + 1) (.arr main) := hr.2 _ (Table.mem_of_lookup h.mainLine)
  refine ⟨?_, fun m hm => ?_⟩
  · rw [keys_formerLines]
    exact nodup_append_singleton hsubs.1 h.reserved.2
  · rcases List.mem_append.1 hm with hm | hm
    · exact (hsubs.2 m hm).mono (Nat.le_succ room)
    · rw [List.mem_singleton.1 hm]
      exact hmain

theorem Rooted.readable {title info : Option String} {lattices : List (String × Json)}
    (h : Rooted n doc title info elements lattices) {room : Nat}
    (helements : Json.Readable room (.obj elements))
    (hlattices : Json.Readable room (.obj lattices)) : Json.Readable (room + 1) (.obj doc) := by
  refine ⟨h.nodup, fun m hm => ?_⟩
  obtain ⟨key, v⟩ := m
  have hlookup := Table.lookup_of_mem h.nodup hm
  have htext : ∀ o : Option String, o.map Json.str = some v → Json.Readable room v := by
    intro o ho
    obtain ⟨s, -, rfl⟩ := Option.map_eq_some_iff.1 ho
    rw [Json.Readable.eq_def]
    trivial
  have hkey := h.known _ hm
  simp only [documentKeys, List.mem_cons, List.not_mem_nil, or_false] at hkey
  rcases hkey with rfl | rfl | rfl | rfl | rfl | rfl
  · exact htext (some _) (h.version.symm.trans hlookup)
  · exact htext title (h.title.symm.trans hlookup)
  · exact htext info (h.info.symm.trans hlookup)
  · exact htext (some _) (h.root.symm.trans hlookup)
  · cases h.elementTable.symm.trans hlookup
    exact helements
  · cases h.latticeTable.symm.trans hlookup
    exact hlattices

/-! ## Elements -/

/-- The element `e` is what the entry `m` of version `n` describes: it has the name, the kind that
the entry names, every parameter of its kind as the entry has it, absent ones too, with numbers as
binary64 values, and what the description says as remark. -/
structure Migrated (n : Nat) (m : String × Json) (e : Element) : Prop where
  name : e.name = m.1
  content : ∃ tag params, FormerEntry n tag params m.2 ∧ formerTags.lookup tag = some e.kind ∧
    (∀ p o, (p, o) ∈ e.body.settings →
      o.map Quantity.toJson = (params.lookup p.name).map Json.floated) ∧
    e.info = remark? params

theorem Carried.migrated {m m' : String × Json} {e : Element} (h : Carried n m m')
    (he : Element.ofJson m'.1 m'.2 = .ok e) {room : Nat} (hr : Json.Readable room m'.2) :
    Migrated n m e := by
  obtain ⟨name, entry⟩ := m'
  obtain ⟨tag, params, k, params', hentry, htag, rfl, -, hrenamed⟩ := h.content
  obtain ⟨hname, hinfo, hbody⟩ := Element.ofJson_pair_eq_ok he
  obtain ⟨hkind, hsettings⟩ := Body.settings_of_ofSource hbody
  refine ⟨hname.trans h.name, tag, params, hentry, ?_, fun p o hp => ?_, ?_⟩
  · rw [htag, ← hkind]
    rfl
  · obtain ⟨room, rfl, hobj⟩ := hr.object_of_pair
    have hnumeric : p.name ≠ "info" ∧ p.name ≠ "description" := by
      have hne : p ≠ .info := (e.body.slot_of_mem_settings _ hp).1
      revert hne
      clear hp
      cases p <;> decide
    rw [toJson_of_quantity? hobj (hsettings _ hp), hrenamed.lookup, if_neg hnumeric.1,
      if_neg hnumeric.2]
  · rw [hinfo, show Parameter.info.name = "info" from rfl, hrenamed.lookup, if_pos rfl]
    cases remark? params <;> rfl

/-! ## Lattices -/

/-- The items of a former lattice stand for elements that its entries describe, in the same
order. -/
theorem FormerObject.flattens (h : FormerObject n doc elements subs main)
    (hlattices : d.latticeTable = formerLines subs main)
    (helements : List.Forall₂ (Migrated n) elements d.elements) {items : List Item}
    {es : List Element} (hes : d.Flattens items es)
    (hdefined : ∀ s ∈ Item.namesOf items, s ∈ Table.keys elements ∨ s ∈ Table.keys subs) :
    ∃ ms, FormerFlattens elements subs (Item.listToJson items) ms ∧
      List.Forall₂ (Migrated n) ms es := by
  induction hes with
  | nil => exact ⟨[], .nil, .nil⟩
  | @element e rest es he _ ih =>
    obtain ⟨m, hm, hmigrated⟩ := exists_of_mem_right helements he
    obtain ⟨ms, hms, hall⟩ := ih fun s hs => hdefined s (List.mem_append_right _ hs)
    refine ⟨m :: ms, ?_, .cons hmigrated hall⟩
    rw [hmigrated.name]
    exact .element hm hms
  | @lattice l rest inner es hl _ _ ihinner ih =>
    have hline : (l.name, Json.arr (Item.listToJson l.items)) ∈ formerLines subs main :=
      hlattices ▸ Document.mem_latticeTable hl
    have hsub : (l.name, Json.arr (Item.listToJson l.items)) ∈ subs := by
      refine (List.mem_append.1 hline).resolve_right fun hmain => ?_
      have hname : l.name = mainLattice := (Prod.mk.inj (List.mem_singleton.1 hmain)).1
      have hmentioned := hdefined l.name (List.mem_append_left _ (List.mem_singleton_self _))
      rw [hname] at hmentioned
      exact hmentioned.elim h.reserved.1 h.reserved.2
    obtain ⟨ms, hms, hall⟩ := ih fun s hs => hdefined s (List.mem_append_right _ hs)
    obtain ⟨minner, hminner, hallinner⟩ := ihinner fun s hs =>
      h.defined l.name _ hline s (Item.occurs_str_iff.2 hs)
    exact ⟨minner ++ ms, .lattice hsub hminner hms, List.rel_append hallinner hall⟩
  | @group items rest inner es _ _ ihinner ih =>
    obtain ⟨ms, hms, hall⟩ := ih fun s hs => hdefined s (List.mem_append_right _ hs)
    obtain ⟨minner, hminner, hallinner⟩ := ihinner fun s hs =>
      hdefined s (List.mem_append_left _ hs)
    exact ⟨minner ++ ms, .group hminner hms, List.rel_append hallinner hall⟩

/-- A former lattice is expanded to what it stood for. -/
theorem FormerObject.expand_eq (h : FormerObject n doc elements subs main)
    (hnames : (Table.keys elements).Nodup) (hsubs : (Table.keys subs).Nodup) (hlawful : d.Lawful)
    (hlattices : d.latticeTable = formerLines subs main)
    (helements : List.Forall₂ (Migrated n) elements d.elements) {name : String} {items : List Json}
    (hline : (name, .arr items) ∈ formerLines subs main) :
    ∃ ms es, (∀ ms', FormerFlattens elements subs items ms' ↔ ms' = ms) ∧
      d.expand name = .ok es ∧ List.Forall₂ (Migrated n) ms es := by
  obtain ⟨l, hl, heq⟩ : ∃ l ∈ d.lattices, (l.name, l.toJson) = (name, .arr items) := by
    rw [← hlattices] at hline
    exact List.mem_map.1 hline
  obtain ⟨rfl, hitems⟩ := Prod.mk.inj heq
  obtain rfl : Item.listToJson l.items = items := Json.arr.inj hitems
  obtain ⟨es, hes⟩ := hlawful.exists_flattens hl
  obtain ⟨ms, hms, hexpanded⟩ := h.flattens hlattices helements hes fun s hs =>
    h.defined l.name _ hline s (Item.occurs_str_iff.2 hs)
  refine ⟨ms, es, fun ms' => ⟨fun hms' => ?_, fun heq => heq ▸ hms⟩, hlawful.expand_eq hl hes,
    hexpanded⟩
  exact hms'.unique hnames hsubs h.distinct hms

/-! ## Documents -/

/-- The texts of a migrated value, however it is laid out. -/
def texts (v : Json) : List String :=
  [v.compactText, v.indentedText, v.layoutText]

/-- A well-formed document of version 0 or 1 is migrated, and the result is decoded from each of its
texts. The main lattice is the root under its new name, every element is what its entry describes
and stands where this stood, and every lattice is expanded to what it stood for in the tables of the
former document. -/
theorem migrateToCurrent_former (h : FormerObject n doc elements subs main)
    (hr : Json.Readable 126 (.obj doc)) : ∃ v d, migrateToCurrent (.obj doc) = .ok v ∧
      (∀ text ∈ texts v, Document.decode .standard text = .ok d) ∧
      d.root = some mainLattice ∧ d.title = name? doc ∧ d.info = remark? doc ∧
      List.Forall₂ (Migrated n) elements d.elements ∧
      ∀ name items, (name, .arr items) ∈ formerLines subs main → ∃ ms es,
        (∀ ms', FormerFlattens elements subs items ms' ↔ ms' = ms) ∧
        d.expand name = .ok es ∧ List.Forall₂ (Migrated n) ms es := by
  have helements : Json.Readable 125 (.obj elements) :=
    hr.2 _ (Table.mem_of_lookup h.elementTable)
  obtain ⟨doc', elements', hmigrate, hrooted, hall⟩ := h.migrate hr
  have hcarried := hall.imp fun _ _ h => h.1
  have hkeys : Table.keys elements' = Table.keys elements :=
    (map_eq_map_of_forall₂ (hcarried.imp fun _ _ h => h.name.symm)).symm
  -- the migrated value is well formed and can be spelled, so it describes a document
  have hwell := h.wellFormed hrooted hcarried
  have hread : Json.Readable 127 (.obj doc') :=
    hrooted.readable ⟨hkeys ▸ helements.1, forall_of_forall₂ (hall.imp fun _ _ h => h.2)⟩
      (h.readable_formerLines hr)
  obtain ⟨d, hd, hversion, hdescribes⟩ := Document.exists_describes hwell hread
  rw [← hversion] at hwell
  obtain ⟨hlawful, -⟩ := Document.lawful_of_describes hwell hdescribes hread
  have hmigrated : List.Forall₂ (Migrated n) elements d.elements := by
    refine forall₂_comp (fun m m' e hm he => ?_) hall
      (Document.elements_of_ofJson hrooted.elementTable hd)
    exact hm.1.migrated he hm.2
  have hstr : Function.Injective (Option.map Json.str) :=
    Option.map_injective fun _ _ => Json.str.inj
  refine ⟨.obj doc', d, hmigrate, fun text htext => ?_,
    hstr (hdescribes.root.symm.trans hrooted.root),
    hstr (hdescribes.title.symm.trans hrooted.title),
    hstr (hdescribes.info.symm.trans hrooted.info), hmigrated, fun name items hline =>
    h.expand_eq helements.1 (h.readable_subs hr).1 hlawful hdescribes.lattices.symm hmigrated hline⟩
  refine Document.decode_eq_ok_iff.2 ⟨.obj doc', ?_, ⟨doc', _, _, _, rfl, hwell⟩, hd⟩
  simp only [texts, List.mem_cons, List.not_mem_nil, or_false] at htext
  rcases htext with rfl | rfl | rfl
  · exact Json.parse_compactText hread
  · exact Json.parse_indentedText hread
  · exact Json.parse_layoutText hread

/-- The elements of a ring of version 0. -/
def ringElements : List (String × Json) :=
  [("D1", .obj [("type", .str "Drift"), ("length", .num (.float 1))]),
    ("C", .obj [("type", .str "RFCavity"), ("length", .num (.float 0.5)),
      ("description", .str "main rf")])]

/-- Its cell, and its main lattice. -/
def ringLines : List (String × Json) := [("CELL", .arr [.str "D1", .str "C"])]

def ringMain : List Json := [.str "CELL", .arr [.str "CELL", .str "D1"]]

/-- The ring as a document of version 0. -/
def ringMembers : List (String × Json) :=
  [("name", .str "ring"), ("description", .str "a small ring"), ("elements", .obj ringElements),
    ("sub_lattices", .obj ringLines), ("lattice", .arr ringMain)]

theorem formerElement_ring : ∀ name entry, (name, entry) ∈ ringElements →
    FormerElement 0 name entry := by
  intro name entry hm
  simp only [ringElements, List.mem_cons, List.not_mem_nil, or_false, Prod.mk.injEq] at hm
  rcases hm with ⟨rfl, rfl⟩ | ⟨rfl, rfl⟩
  · refine ⟨by decide, "Drift", _, .drift, .embedded rfl, rfl, ⟨?_, ?_, ?_⟩⟩
    · have hpasses : Passes false (parameterFindings [] .drift [("length", .num (.float 1))]) := by
        unfold Passes
        decide +kernel
      simpa using passes_parameterFindings.1 hpasses
    · simp
    · simp [Table.keys, Parameter.name]
  · refine ⟨by decide, "RFCavity", _, .cavity, .embedded rfl, rfl, ⟨?_, ?_, ?_⟩⟩
    · have hpasses : Passes false
          (parameterFindings [] .cavity [("length", .num (.float 0.5))]) := by
        unfold Passes
        decide +kernel
      simpa using passes_parameterFindings.1 hpasses
    · simp
    · simp [Table.keys, Parameter.name]

theorem of_mem_formerLines_ring {name : String} {items : List Json}
    (h : (name, .arr items) ∈ formerLines ringLines ringMain) :
    name = "CELL" ∧ items = [.str "D1", .str "C"] ∨
      name = mainLattice ∧ items = [.str "CELL", .arr [.str "CELL", .str "D1"]] := by
  simpa [formerLines, ringLines, ringMain] using h

theorem formerObject_ring : FormerObject 0 ringMembers ringElements ringLines ringMain where
  early := by decide
  version := .inl ⟨rfl, rfl⟩
  known := by decide
  texts := by simp [ringMembers, List.lookup_cons]
  elementTable := rfl
  subTable := .inr rfl
  mainLine := rfl
  element := formerElement_ring
  line := by simp [ringLines]
  items := by
    intro name items hm v hv
    rcases of_mem_formerLines_ring hm with ⟨-, rfl⟩ | ⟨-, rfl⟩
    · simp [occurs_cons_iff, not_occurs_nil] at hv
      rcases hv with rfl | rfl <;> simp
    · simp [occurs_cons_iff, not_occurs_nil] at hv
      rcases hv with rfl | rfl | rfl | rfl <;> simp
  distinct := by decide
  reserved := by decide
  defined := by
    intro name items hm s hs
    rcases of_mem_formerLines_ring hm with ⟨-, rfl⟩ | ⟨-, rfl⟩
    · simp [occurs_cons_iff, not_occurs_nil] at hs
      rcases hs with rfl | rfl <;> decide
    · simp [occurs_cons_iff, not_occurs_nil] at hs
      rcases hs with rfl | rfl | rfl <;> decide
  acyclic := by
    intro name hcycle
    obtain ⟨b, -, items, hlookup, hoccurs, hname⟩ := Relation.TransGen.tail'_iff.1 hcycle
    obtain rfl : name = "CELL" := List.mem_singleton.1 hname
    obtain ⟨-, rfl⟩ : b = "CELL" ∧ items = [.str "D1", .str "C"] := by
      simpa [ringLines] using Table.mem_of_lookup hlookup
    simp [occurs_cons_iff, not_occurs_nil] at hoccurs

theorem readable_ring : Json.Readable 126 (.obj ringMembers) := by
  have hone : (Number.float 1).Legible := by
    show Float.isFinite 1 = true
    decide +kernel
  have hhalf : (Number.float 0.5).Legible := by
    show Float.isFinite 0.5 = true
    decide +kernel
  refine ⟨by decide, fun m hm => ?_⟩
  simp only [ringMembers, List.mem_cons, List.not_mem_nil, or_false] at hm
  rcases hm with rfl | rfl | rfl | rfl | rfl
  · trivial
  · trivial
  · refine ⟨by decide, fun m hm => ?_⟩
    rcases List.mem_pair.1 hm with rfl | rfl
    · exact ⟨by decide, by simp [Json.Readable, hone]⟩
    · exact ⟨by decide, by simp [Json.Readable, hhalf]⟩
  · exact ⟨by decide, by simp [ringLines, Json.Readable]⟩
  · simp [ringMain, Json.Readable]

/-- `migrateToCurrent_former` for the ring. -/
theorem migrateToCurrent_former_ring : ∃ v d es, migrateToCurrent (.obj ringMembers) = .ok v ∧
    Document.decode .standard v.compactText = .ok d ∧ d.title = some "ring" ∧
    d.elements.map (·.name) = ["D1", "C"] ∧ d.expand mainLattice = .ok es ∧
    es.map (·.name) = ["D1", "C", "D1", "C", "D1"] := by
  obtain ⟨v, d, hmigrate, hdecode, -, htitle, -, helements, hexpand⟩ :=
    migrateToCurrent_former formerObject_ring readable_ring
  obtain ⟨ms, es, hms, hes, hall⟩ := hexpand mainLattice ringMain (by simp [formerLines])
  refine ⟨v, d, es, hmigrate, hdecode _ List.mem_cons_self, htitle, ?_, hes, ?_⟩
  · rw [← map_eq_map_of_forall₂ (helements.imp fun _ _ h => h.name.symm)]
    rfl
  · rw [← map_eq_map_of_forall₂ (hall.imp fun _ _ h => h.name.symm)]
    have hD : ("D1", _) ∈ ringElements := List.mem_cons_self
    have hC : ("C", _) ∈ ringElements := List.mem_cons_of_mem _ List.mem_cons_self
    have hcell : FormerFlattens ringElements ringLines [.str "D1", .str "C"] _ :=
      .element hD (.element hC .nil)
    have hmain := FormerFlattens.lattice (List.mem_singleton.2 rfl) hcell
      (.group (.lattice (List.mem_singleton.2 rfl) hcell (.element hD .nil)) .nil)
    rw [← (hms _).1 hmain]
    rfl
end Beamline.Migration

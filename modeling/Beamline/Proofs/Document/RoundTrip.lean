import Beamline.Proofs.Document.Lawful
import Beamline.Proofs.Json.Writer

/-!
# Encoding and decoding

* `Error.IsVerdict` : the errors that violations amount to;
* `Document.ofJson_toJson` : the raw form of a lawful document describes the document;
* `Document.exists_ofJson` : a well-formed value describes a lawful document;
* `Document.decode_eq_ok_iff` : what decodes is what describes a document and is accepted;
* `Document.decode_iff_accepted` : decoding a text fails only where validation does, and what it
  returns keeps the rules;
* `Document.decode_encode` : an encoded document is decoded as it was.
-/

namespace Beamline

open Validation

/-! ## The error of a document -/

/-- An error that tells of broken rules, undefined names or cycles. -/
inductive Error.IsVerdict : Error → Prop where
  | validation (vs : List Violation) : IsVerdict (.validation vs)
  | reference (missing : List Dangling) (vs : List Violation) : IsVerdict (.reference missing vs)
  | cycle (cycles : List (List String)) (vs : List Violation) : IsVerdict (.cycle cycles vs)

theorem Error.isVerdict_ofViolations (vs : List Violation) : (ofViolations vs).IsVerdict := by
  unfold ofViolations
  split
  · exact .validation vs
  · split
    · exact .reference _ vs
    · split
      · exact .cycle _ vs
      · exact .validation vs

namespace Document

variable {d : Document}

/-! ## The raw form describes the document -/

theorem filter_members (hextras : ∀ m ∈ d.extras, m.1 ∉ documentKeys) :
    (d.members.filter fun m => !knownKeys.contains m.1) = d.extras := by
  have hunknown : d.extras.filter (fun m => !knownKeys.contains m.1) = d.extras := by
    rw [List.filter_eq_self]
    intro m hm
    rw [Bool.not_eq_true', ← Bool.not_eq_true, List.contains_iff_mem]
    exact hextras m hm
  obtain ⟨version, title, info, root, elements, lattices, extras⟩ := d
  dsimp only at hunknown
  unfold members
  rw [List.filter_append, hunknown]
  cases title <;> cases info <;> cases root <;> rfl

/-- The raw form of a lawful document describes the document. -/
theorem ofJson_toJson (h : d.Lawful) : ofJson d.toJson = .ok d := by
  have hmembers := members_members h.extras
  have helements : tableOf d.members "elements" Element.ofJson = .ok d.elements := by
    simp only [tableOf, hmembers.elements, Json.members?]
    rw [mapM_eq_ok, elementTable, List.forall₂_map_left_iff, List.forall₂_same]
    exact fun e he => Element.ofJson_toJson (h.elements e he)
  have hlattices : tableOf d.members "lattices" Lattice.ofJson = .ok d.lattices := by
    simp only [tableOf, hmembers.lattices, Json.members?]
    rw [mapM_eq_ok, latticeTable, List.forall₂_map_left_iff, List.forall₂_same]
    intro l _
    exact bind_eq_ok.2 ⟨_, mapError_eq_ok.2 (Item.listOfJson_listToJson l.items), rfl⟩
  have hversion : Version.parse? d.version.text = some d.version :=
    Version.parse?_text (by rw [h.major]; decide) h.minor
  have htext : ∀ o : Option String, (o.map Json.str).bind Json.text? = o := by
    intro o
    cases o <;> rfl
  refine bind_eq_ok.2 ⟨_, helements, bind_eq_ok.2 ⟨_, hlattices, ?_⟩⟩
  simp only [hmembers.version, hmembers.title, hmembers.info, hmembers.root, Option.bind_some,
    Json.text?, hversion, htext, filter_members h.extras]
  rfl

/-! ## A well-formed value describes a document -/

theorem exists_mapM {α : Type} (entries : List (String × Json))
    {entryOf : String → Json → Except Gap α} {P : String × Json → α → Prop}
    (h : ∀ m ∈ entries, ∃ a, entryOf m.1 m.2 = .ok a ∧ P m a) :
    ∃ as, (entries.mapM fun (name, entry) => entryOf name entry) = .ok as ∧
      List.Forall₂ P entries as := by
  induction entries with
  | nil => exact ⟨[], rfl, .nil⟩
  | cons m entries ih =>
    obtain ⟨⟨a, ha, hP⟩, hentries⟩ := List.forall_mem_cons.1 h
    obtain ⟨as, has, hall⟩ := ih hentries
    refine ⟨a :: as, ?_, .cons hP hall⟩
    rw [List.mapM_cons]
    exact bind_eq_ok.2 ⟨a, ha, bind_eq_ok.2 ⟨as, has, rfl⟩⟩

/-- A well-formed entry of a lattice describes a lattice with that raw form. -/
theorem exists_latticeOfJson {nesting : Nesting} {isLattice : String → Prop} {name : String}
    {entry : Json} (h : WellFormedLattice nesting isLattice name entry) :
    ∃ l, Lattice.ofJson name entry = .ok l ∧ (name, entry) = (l.name, l.toJson) := by
  obtain ⟨raw, rfl, hraw⟩ := h.items
  obtain ⟨items, hitems⟩ := Item.exists_listOfJson raw hraw.form
  refine ⟨⟨name, items⟩, bind_eq_ok.2 ⟨items, mapError_eq_ok.2 hitems, rfl⟩, ?_⟩
  rw [Lattice.toJson, Item.listOfJson_eq_ok_iff.1 hitems]

/-- What a well-formed value describes is made of its members. -/
structure Describes (doc elements lattices : List (String × Json)) (d : Document) : Prop where
  title : doc.lookup "title" = d.title.map .str
  info : doc.lookup "info" = d.info.map .str
  root : doc.lookup "root" = d.root.map .str
  elementNames : Table.keys elements = d.elements.map (·.name)
  elements : ∀ e ∈ d.elements, e.Lawful
  lattices : lattices = d.latticeTable
  extras : d.extras = doc.filter fun m => !knownKeys.contains m.1

/-- A well-formed object describes a document. -/
theorem exists_describes {policy : Policy} {doc elements lattices : List (String × Json)}
    {version : Version} (h : WellFormedObject policy doc version elements lattices) {room : Nat}
    (hr : Json.Readable (room + 2) (.obj doc)) :
    ∃ d, ofJson (.obj doc) = .ok d ∧ d.version = version ∧ Describes doc elements lattices d := by
  obtain ⟨text, hversion, hspelled⟩ := h.spelled
  have hreadable : Json.Readable (room + 1) (.obj elements) :=
    hr.2 _ (Table.mem_of_lookup h.elementTable)
  obtain ⟨es, hes, helements⟩ := exists_mapM elements fun m hm =>
    Element.exists_ofJson (h.element m.1 m.2 hm) (hreadable.2 m hm)
  obtain ⟨ls, hls, hlattices⟩ := exists_mapM lattices fun m hm =>
    exists_latticeOfJson (h.lattice m.1 m.2 hm)
  have htext : ∀ key ∈ ["title", "info", "root"],
      doc.lookup key = ((doc.lookup key).bind Json.text?).map .str := by
    intro key hkey
    cases hv : doc.lookup key with
    | none => rfl
    | some v =>
      obtain ⟨s, rfl⟩ := h.texts key hkey v hv
      rfl
  refine ⟨⟨version, (doc.lookup "title").bind Json.text?, (doc.lookup "info").bind Json.text?,
    (doc.lookup "root").bind Json.text?, es, ls, doc.filter fun m => !knownKeys.contains m.1⟩,
    ?_, rfl, htext _ (by simp), htext _ (by simp), htext _ (by simp), ?_, ?_, ?_, rfl⟩
  · have helementTable : tableOf doc "elements" Element.ofJson = .ok es := by
      simp only [tableOf, h.elementTable, Json.members?]
      exact hes
    have hlatticeTable : tableOf doc "lattices" Lattice.ofJson = .ok ls := by
      simp only [tableOf, h.latticeTable, Json.members?]
      exact hls
    refine bind_eq_ok.2 ⟨_, helementTable, bind_eq_ok.2 ⟨_, hlatticeTable, ?_⟩⟩
    simp only [hversion, Option.bind_some, Json.text?, Version.parse?_eq_some_iff.2 hspelled]
    rfl
  · exact map_eq_map_of_forall₂ (helements.imp fun _ _ h => h.1.symm)
  · exact forall_of_forall₂ (helements.imp fun _ _ h => h.2)
  · rw [latticeTable, ← map_eq_map_of_forall₂ hlattices, List.map_id']

/-- The rules that the document of a well-formed object keeps. -/
theorem lawful_of_describes {policy : Policy} {doc elements lattices : List (String × Json)}
    (h : WellFormedObject policy doc d.version elements lattices)
    (hd : Describes doc elements lattices d) {room : Nat}
    (hr : Json.Readable (room + 2) (.obj doc)) : d.Lawful ∧ d.Meets policy := by
  have helements : Json.Readable (room + 1) (.obj elements) :=
    hr.2 _ (Table.mem_of_lookup h.elementTable)
  have hlattices : Json.Readable (room + 1) (.obj lattices) :=
    hr.2 _ (Table.mem_of_lookup h.latticeTable)
  have hsub : d.extras.Sublist doc := by
    rw [hd.extras]
    exact List.filter_sublist
  have hextras : ∀ m ∈ d.extras, m.1 ∉ documentKeys := by
    intro m hm
    rw [hd.extras] at hm
    have := (List.mem_filter.1 hm).2
    rwa [Bool.not_eq_true', ← Bool.not_eq_true, List.contains_iff_mem] at this
  refine ⟨lawful_of_wellFormedObject h hd.elementNames hd.lattices hd.root hd.elements ?_ ?_
    ((hsub.map Prod.fst).nodup hr.1) hextras, meets_of_wellFormedObject h hd.lattices hextras
    hsub.subset⟩
  · rw [← hd.elementNames]
    exact helements.1
  · rw [← keys_latticeTable, ← hd.lattices]
    exact hlattices.1

/-! ## The raw form is readable -/

theorem nodup_keys_members (h : d.Lawful) : (Table.keys d.members).Nodup := by
  have hnames := h.extraNames
  have hextras := h.extras
  obtain ⟨version, title, info, root, elements, lattices, extras⟩ := d
  dsimp only at hnames hextras
  have hknown : ∀ key ∈ documentKeys, ∀ v, (key, v) ∉ extras := fun key hkey v hv =>
    hextras _ hv hkey
  have hversion := hknown "version" (by decide)
  have htitle := hknown "title" (by decide)
  have hinfo := hknown "info" (by decide)
  have hroot := hknown "root" (by decide)
  have helements := hknown "elements" (by decide)
  have hlattices := hknown "lattices" (by decide)
  have hextras : (extras.map Prod.fst).Nodup := hnames
  cases title <;> cases info <;> cases root <;>
    simp [Table.keys, members, hversion, htitle, hinfo, hroot, helements, hlattices, hextras]

theorem value_of_mem_members {m : String × Json} (h : m ∈ d.members) :
    (∃ s, m.2 = .str s) ∨ m.2 = .obj d.elementTable ∨ m.2 = .obj d.latticeTable ∨
      m ∈ d.extras := by
  simp only [members, List.mem_append, List.mem_cons, List.mem_map, List.not_mem_nil,
    or_false] at h
  rcases h with ((((rfl | ⟨s, -, rfl⟩) | ⟨s, -, rfl⟩) | ⟨s, -, rfl⟩) | rfl | rfl) | h
  · exact .inl ⟨_, rfl⟩
  · exact .inl ⟨_, rfl⟩
  · exact .inl ⟨_, rfl⟩
  · exact .inl ⟨_, rfl⟩
  · exact .inr (.inl rfl)
  · exact .inr (.inr (.inl rfl))
  · exact .inr (.inr (.inr h))

/-- The raw form of a document can be spelled if its lattices and extras can. -/
theorem readable_toJson (h : d.Lawful) {room : Nat}
    (hlattices : Json.Readable (room + 4) (.obj d.latticeTable))
    (hextras : ∀ m ∈ d.extras, Json.Readable (room + 4) m.2) :
    Json.Readable (room + 5) d.toJson := by
  refine ⟨nodup_keys_members h, fun m hm => ?_⟩
  rcases value_of_mem_members hm with ⟨s, hs⟩ | hs | hs | hm
  · rw [hs]
    trivial
  · rw [hs]
    refine ⟨?_, fun m hm => ?_⟩
    · rw [keys_elementTable]
      exact h.elementNames
    · obtain ⟨e, -, rfl⟩ := List.mem_map.1 hm
      exact Element.readable_toJson e room
  · rw [hs]
    exact hlattices
  · exact hextras m hm

/-! ## Decoding -/

/-- What decodes is what describes a document and is accepted. -/
theorem decode_eq_ok_iff {policy : Policy} {text : String} : decode policy text = .ok d ↔
    ∃ v, Json.parse text = .ok v ∧ WellFormed policy v ∧ ofJson v = .ok d := by
  unfold decode ofRaw
  constructor
  · intro h
    split at h
    · cases h
    · rename_i v hv
      dsimp only at h
      split at h
      · rename_i haccepted
        exact ⟨v, hv, passes_findings_iff.1 (accepted_iff.1 haccepted), mapError_eq_ok.1 h⟩
      · cases h
  · rintro ⟨v, hv, hwell, hd⟩
    rw [hv]
    dsimp only
    rw [if_pos (accepted_iff.2 (passes_findings_iff.2 hwell)), hd]
    rfl

/-- What is known of a document that was read from the raw value `v` under a policy. -/
structure ReadFrom (policy : Policy) (v : Json) (d : Document) : Prop where
  lawful : d.Lawful
  meets : d.Meets policy
  readable : Json.Readable Json.maxDepth d.toJson
  elementKeys : ∀ elements, v.get? "elements" = some (.obj elements) →
    d.elements.map (·.name) = Table.keys elements
  latticeKeys : ∀ lattices, v.get? "lattices" = some (.obj lattices) →
    d.lattices.map (·.name) = Table.keys lattices

/-- A well-formed value that a text spells describes a document that keeps the rules. -/
theorem exists_ofJson {policy : Policy} {v : Json} (h : WellFormed policy v)
    (hr : Json.Readable Json.maxDepth v) : ∃ d, ofJson v = .ok d ∧ ReadFrom policy v d := by
  obtain ⟨doc, version, elements, lattices, rfl, hdoc⟩ := h
  obtain ⟨d, hd, rfl, hdescribes⟩ := exists_describes hdoc hr
  obtain ⟨hlawful, hmeets⟩ := lawful_of_describes hdoc hdescribes hr
  refine ⟨d, hd, hlawful, hmeets, readable_toJson hlawful ?_ ?_, fun elements' h => ?_,
    fun lattices' h => ?_⟩
  · rw [← hdescribes.lattices]
    exact hr.2 _ (Table.mem_of_lookup hdoc.latticeTable)
  · intro m hm
    rw [hdescribes.extras] at hm
    exact hr.2 m (List.mem_filter.1 hm).1
  · rw [Json.get?, Json.members?, Option.bind_some, hdoc.elementTable] at h
    cases h
    exact hdescribes.elementNames.symm
  · rw [Json.get?, Json.members?, Option.bind_some, hdoc.latticeTable] at h
    cases h
    rw [hdescribes.lattices, keys_latticeTable]

theorem readFrom_of_decode {policy : Policy} {text : String} (h : decode policy text = .ok d) :
    ∃ v, Json.parse text = .ok v ∧ ReadFrom policy v d := by
  obtain ⟨v, hv, hwell, hd⟩ := decode_eq_ok_iff.1 h
  obtain ⟨d', hd', hread⟩ := exists_ofJson hwell (Json.parse_readable hv)
  rw [hd] at hd'
  cases hd'
  exact ⟨v, hv, hread⟩

/-- A lawful document with a raw form that can be spelled is decoded as it was encoded. -/
theorem decode_encode_of_lawful {policy : Policy} (h : d.Lawful) (hmeets : d.Meets policy)
    (hr : Json.Readable Json.maxDepth d.toJson) : decode policy d.encode = .ok d :=
  decode_eq_ok_iff.2 ⟨d.toJson, Json.parse_layoutText hr, wellFormed_toJson h hmeets,
    ofJson_toJson h⟩

theorem ofViolations_ne_internal (vs : List Violation) (gap : Gap) :
    Error.ofViolations vs ≠ .internal gap := by
  intro h
  have hverdict := Error.isVerdict_ofViolations vs
  rw [h] at hverdict
  cases hverdict

/-- A text that is JSON is decoded if and only if validation accepts it, never with an internal
error, and what is decoded keeps the rules: what stands under a key has it for its name. -/
theorem decode_iff_accepted {policy : Policy} {text : String} {v : Json}
    (h : Json.parse text = .ok v) :
    ((∃ d, decode policy text = .ok d) ↔ (validate policy v).accepted = true) ∧
    (∀ gap, decode policy text ≠ .error (.internal gap)) ∧
    ∀ d, decode policy text = .ok d → d.Lawful ∧
      (∀ elements, v.get? "elements" = some (.obj elements) →
        d.elements.map (·.name) = Table.keys elements) ∧
      (∀ lattices, v.get? "lattices" = some (.obj lattices) →
        d.lattices.map (·.name) = Table.keys lattices) ∧
      (∀ e ∈ d.elements, d.element? e.name = some e) ∧
      ∀ l ∈ d.lattices, d.lattice? l.name = some l := by
  have haccepted : (validate policy v).accepted = true → ∃ d, decode policy text = .ok d := by
    intro hv
    have hwell := passes_findings_iff.1 (accepted_iff.1 hv)
    obtain ⟨d, hd, -⟩ := exists_ofJson hwell (Json.parse_readable h)
    exact ⟨d, decode_eq_ok_iff.2 ⟨v, h, hwell, hd⟩⟩
  refine ⟨⟨?_, haccepted⟩, fun gap hgap => ?_, fun d hd => ?_⟩
  · rintro ⟨d, hd⟩
    obtain ⟨w, hw, hwell, -⟩ := decode_eq_ok_iff.1 hd
    rw [h] at hw
    cases hw
    exact accepted_iff.2 (passes_findings_iff.2 hwell)
  · -- the internal error comes after validation, and there the document is described
    by_cases hv : (validate policy v).accepted = true
    · obtain ⟨d, hd⟩ := haccepted hv
      rw [hd] at hgap
      cases hgap
    · have herror : decode policy text = .error (.ofViolations (validate policy v).errors) := by
        simp only [decode, h, ofRaw, hv]
        rfl
      rw [herror] at hgap
      exact ofViolations_ne_internal _ gap (Except.error.inj hgap)
  · obtain ⟨w, hw, hread⟩ := readFrom_of_decode hd
    rw [h] at hw
    cases hw
    exact ⟨hread.lawful, hread.elementKeys, hread.latticeKeys,
      fun e he => hread.lawful.element?_of_mem he, fun l hl => hread.lawful.lattice?_of_mem hl⟩

/-- A document in a later minor version, with a member and a parameter that are not known. -/
def laterText : String :=
  "\x7b\"version\": \" 3.1\", \"note\": \x7b\"a\": [1, null, -2.5e-7]\x7d, \"root\": \"Ω\", " ++
    "\"elements\": \x7b\"dé\": [\"drift\", \x7b\"colour\": 2, \"length\": 1\x7d]\x7d, " ++
    "\"lattices\": \x7b\"Ω\": [\"dé\", [[\"dé\"], \"dé\"]]\x7d\x7d"

theorem isSome_decode_laterText : (decode .standard laterText).toOption.isSome = true := by
  decide +kernel

/-- `decode_iff_accepted` for a document of a later minor version. -/
theorem lawful_laterText : ∃ v d, Json.parse laterText = .ok v ∧
    decode .standard laterText = .ok d ∧ d.Lawful := by
  have h := isSome_decode_laterText
  cases hd : decode .standard laterText with
  | error e => rw [hd] at h; cases h
  | ok d =>
    obtain ⟨v, hv, -⟩ := decode_eq_ok_iff.1 hd
    exact ⟨v, d, hv, rfl, ((decode_iff_accepted hv).2.2 d hd).1⟩

/-- An encoded document is decoded as it was, under the same policy, and encodes to the same
text. -/
theorem decode_encode {policy : Policy} {text : String} (h : decode policy text = .ok d) :
    ∃ d', decode policy d.encode = .ok d' ∧ d' = d ∧ d'.encode = d.encode := by
  obtain ⟨v, -, hread⟩ := readFrom_of_decode h
  exact ⟨d, decode_encode_of_lawful hread.lawful hread.meets hread.readable, rfl, rfl⟩

/-- `decode_encode` for a document of a later minor version. -/
theorem decode_encode_laterText : ∃ d d', decode .standard laterText = .ok d ∧
    decode .standard d.encode = .ok d' ∧ d' = d := by
  have h := isSome_decode_laterText
  cases hd : decode .standard laterText with
  | error e => rw [hd] at h; cases h
  | ok d =>
    obtain ⟨d', hd', heq, -⟩ := decode_encode hd
    exact ⟨d, d', rfl, hd', heq⟩

end Document

end Beamline

import Beamline.Proofs.Document.RoundTrip

/-!
# What decoding keeps

A document that was decoded and is written again differs from what was read in few things: the
order of its members and of the parameters of its elements, the spelling of its version, numbers
of parameters that become binary64 values, and parameters that the kind of an element does not have.

* `Json.floated`, `keptParameters` : the parameters of an entry as they are written again;
* `EntryKept`, `MemberKept`, `Kept` : what is left of the entry of an element, of a member, and of a
  document;
* `Body.settings_of_ofSource` : a body has all parameters of its kind from its source;
* `Element.parameters_perm` : an element has all parameters of its entry that its kind has;
* `Document.kept_of_decode` : a document that was decoded keeps what was read.
-/

namespace Beamline

open Validation

/-! ## What is written again -/

namespace Json

/-- A number as a binary64 value; any other value as it is. -/
def floatedNumber : Json → Json
  | .num n => .num (.float n.toFloat)
  | v => v

/-- A number, or the numbers of a list, as binary64 values; any other value as it is. -/
def floated : Json → Json
  | .arr items => .arr (items.map floatedNumber)
  | v => floatedNumber v

end Json

/-- The parameters that the kind of an element has, with their numbers as binary64 values. -/
def keptParameters (k : Kind) (params : List (String × Json)) : List (String × Json) :=
  (params.filter fun m => (k.parameter? m.1).isSome).map fun m => (m.1, m.2.floated)

/-- An entry of an element is left with its name, its kind and the parameters of that kind; to a
reader that is not `lenient` these are all it has. -/
inductive EntryKept (lenient : Prop) : String × Json → String × Json → Prop where
  | pair {name : String} {k : Kind} {params params' : List (String × Json)} :
    params'.Perm (keptParameters k params) →
    lenient ∨ (∀ m ∈ params, (k.parameter? m.1).isSome) →
    EntryKept lenient (name, .arr [.str k.tag, .obj params]) (name, .arr [.str k.tag, .obj params'])

/-- A member of a document of that version is left as it is, but for the spelling of the version and
for the entries of elements. -/
inductive MemberKept (lenient : Prop) (version : Version) :
    String × Json → String × Json → Prop where
  | version {text : String} : version.Spelled text →
    MemberKept lenient version ("version", .str text) ("version", .str version.text)
  | elements {entries entries' : List (String × Json)} :
    List.Forall₂ (EntryKept lenient) entries entries' →
    MemberKept lenient version ("elements", .obj entries) ("elements", .obj entries')
  | other {key : String} {v : Json} : key ≠ "version" → key ≠ "elements" →
    MemberKept lenient version (key, v) (key, v)

/-- The raw form of a document is what is left of the members of a raw value, in some order. -/
def Kept (policy : Policy) (v : Json) (d : Document) : Prop :=
  ∃ doc kept members, v = .obj doc ∧ d.toJson = .obj members ∧ members.Perm kept ∧
    List.Forall₂ (MemberKept (policy.mode = .lenient ∨ 0 < d.version.minor) d.version) doc kept

/-! ## The parameters of a body -/

namespace Body

/-- The value of a parameter in a source, as its form has it. -/
def Source.quantity? (s : Source) (p : Parameter) : Except Parameter.Flaw (Option Quantity) :=
  if p.form = .numbers then (s.numbers? p).map (Option.map .numbers)
  else (s.number? p).map (Option.map .number)

section Source

variable {s : Source} {p : Parameter}

theorem optionalNumber {o : Option Float} (h : s.number? p = .ok o) (hp : p.form ≠ .numbers) :
    s.quantity? p = .ok (o.map .number) := by
  rw [Source.quantity?, if_neg hp, h]
  rfl

theorem optionalNumbers {o : Option (List Float)} (h : s.numbers? p = .ok o)
    (hp : p.form = .numbers) : s.quantity? p = .ok (o.map .numbers) := by
  rw [Source.quantity?, if_pos hp, h]
  rfl

theorem requiredNumber {x : Float} (h : s.number p = .ok x) (hp : p.form ≠ .numbers) :
    s.quantity? p = .ok (some (.number x)) := by
  obtain ⟨o, ho, h⟩ := bind_eq_ok.1 h
  cases o with
  | none => cases h
  | some y =>
    cases h
    exact optionalNumber ho hp

theorem requiredNumbers {xs : List Float} (h : s.numbers p = .ok xs) (hp : p.form = .numbers) :
    s.quantity? p = .ok (some (.numbers xs)) := by
  obtain ⟨o, ho, h⟩ := bind_eq_ok.1 h
  cases o with
  | none => cases h
  | some ys =>
    cases h
    exact optionalNumbers ho hp

end Source

/-- A body has all parameters of its kind from its source, those that are absent too. -/
theorem settings_of_ofSource {k : Kind} {s : Source} {b : Body} (h : ofSource k s = .ok b) :
    b.kind = k ∧ ∀ m ∈ b.settings, s.quantity? m.1 = .ok m.2 := by
  cases k with
  | drift =>
    obtain ⟨l, hl, h⟩ := bind_eq_ok.1 h
    cases h
    exact ⟨rfl, by simp [settings, requiredNumber hl (by decide)]⟩
  | dipole =>
    obtain ⟨l, hl, h⟩ := bind_eq_ok.1 h
    obtain ⟨a, ha, h⟩ := bind_eq_ok.1 h
    obtain ⟨e1, he1, h⟩ := bind_eq_ok.1 h
    obtain ⟨e2, he2, h⟩ := bind_eq_ok.1 h
    obtain ⟨k1, hk1, h⟩ := bind_eq_ok.1 h
    cases h
    exact ⟨rfl, by simp [settings, requiredNumber hl (by decide), requiredNumber ha (by decide),
      optionalNumber he1 (by decide), optionalNumber he2 (by decide),
      optionalNumber hk1 (by decide)]⟩
  | quadrupole =>
    obtain ⟨l, hl, h⟩ := bind_eq_ok.1 h
    obtain ⟨k1, hk1, h⟩ := bind_eq_ok.1 h
    cases h
    exact ⟨rfl, by simp [settings, requiredNumber hl (by decide), optionalNumber hk1 (by decide)]⟩
  | sextupole =>
    obtain ⟨l, hl, h⟩ := bind_eq_ok.1 h
    obtain ⟨k2, hk2, h⟩ := bind_eq_ok.1 h
    cases h
    exact ⟨rfl, by simp [settings, requiredNumber hl (by decide), optionalNumber hk2 (by decide)]⟩
  | octupole =>
    obtain ⟨l, hl, h⟩ := bind_eq_ok.1 h
    obtain ⟨k3, hk3, h⟩ := bind_eq_ok.1 h
    cases h
    exact ⟨rfl, by simp [settings, requiredNumber hl (by decide), optionalNumber hk3 (by decide)]⟩
  | solenoid =>
    obtain ⟨l, hl, h⟩ := bind_eq_ok.1 h
    obtain ⟨ks, hks, h⟩ := bind_eq_ok.1 h
    cases h
    exact ⟨rfl, by simp [settings, requiredNumber hl (by decide), optionalNumber hks (by decide)]⟩
  | cavity =>
    obtain ⟨l, hl, h⟩ := bind_eq_ok.1 h
    obtain ⟨v, hv, h⟩ := bind_eq_ok.1 h
    obtain ⟨f, hf, h⟩ := bind_eq_ok.1 h
    obtain ⟨ph, hph, h⟩ := bind_eq_ok.1 h
    cases h
    exact ⟨rfl, by simp [settings, requiredNumber hl (by decide), optionalNumber hv (by decide),
      optionalNumber hf (by decide), optionalNumber hph (by decide)]⟩
  | kicker =>
    obtain ⟨l, hl, h⟩ := bind_eq_ok.1 h
    obtain ⟨hk, hhk, h⟩ := bind_eq_ok.1 h
    obtain ⟨vk, hvk, h⟩ := bind_eq_ok.1 h
    cases h
    exact ⟨rfl, by simp [settings, optionalNumber hl (by decide), optionalNumber hhk (by decide),
      optionalNumber hvk (by decide)]⟩
  | multipole =>
    obtain ⟨kn, hkn, h⟩ := bind_eq_ok.1 h
    obtain ⟨ks, hks, h⟩ := bind_eq_ok.1 h
    cases h
    exact ⟨rfl, by simp [settings, requiredNumbers hkn (by decide),
      optionalNumbers hks (by decide)]⟩
  | monitor =>
    obtain ⟨l, hl, h⟩ := bind_eq_ok.1 h
    cases h
    exact ⟨rfl, by simp [settings, optionalNumber hl (by decide)]⟩
  | marker =>
    cases h
    exact ⟨rfl, fun m hm => absurd hm List.not_mem_nil⟩

theorem lookup_fields {b : Body} {p : Parameter} {o : Option Quantity} (h : (p, o) ∈ b.settings) :
    b.fields.lookup p = o := by
  cases o with
  | some q => exact Table.lookup_of_mem b.nodup_keys_fields (mem_fields_iff.2 h)
  | none =>
    rw [Table.lookup_eq_none, Table.mem_keys]
    rintro ⟨q, hq⟩
    have := Table.lookup_of_mem b.nodup_keys_settings (mem_fields_iff.1 hq)
    rw [Table.lookup_of_mem b.nodup_keys_settings h] at this
    cases this

end Body

/-! ## The parameters of an element -/

theorem toJson_number {n : Number} (hn : n.Legible) :
    (Quantity.number n.toFloat).toJson = (Json.num n).floated :=
  Quantity.ofFloat_of_isFinite (Number.isFinite_toFloat hn)

theorem toJson_numbers {items : List Json} {xs : List Float}
    (h : items.mapM Json.float? = some xs) {room : Nat}
    (hr : ∀ item ∈ items, Json.Readable room item) :
    (Quantity.numbers xs).toJson = (Json.arr items).floated := by
  suffices hmap : xs.map Json.ofFloat = items.map Json.floatedNumber from congrArg Json.arr hmap
  induction items generalizing xs with
  | nil =>
    cases h
    rfl
  | cons item items ih =>
    obtain ⟨hitem, hitems⟩ := List.forall_mem_cons.1 hr
    rw [List.mapM_cons] at h
    obtain ⟨x, hx, h⟩ := Option.bind_eq_some_iff.1 h
    obtain ⟨xs', hxs', h⟩ := Option.bind_eq_some_iff.1 h
    cases h
    cases item with
    | num n =>
      cases hx
      rw [Json.Readable.eq_def] at hitem
      exact congrArg₂ List.cons (toJson_number hitem) (ih hxs' hitems)
    | _ => cases hx

/-- The quantity that an object has for a parameter is written as the member with numbers as
binary64 values. -/
theorem toJson_of_quantity? {params : List (String × Json)} {room : Nat}
    (hr : Json.Readable (room + 1) (.obj params)) {p : Parameter} {o : Option Quantity}
    (h : (Body.Source.ofMembers params).quantity? p = .ok o) :
    o.map Quantity.toJson = (params.lookup p.name).map Json.floated := by
  unfold Body.Source.quantity? at h
  split at h
  · obtain ⟨o', ho', rfl⟩ := map_eq_ok.1 h
    simp only [Body.Source.ofMembers] at ho'
    cases hv : params.lookup p.name with
    | none =>
      rw [hv] at ho'
      cases ho'
      rfl
    | some v =>
      have hread := hr.2 _ (Table.mem_of_lookup hv)
      rw [hv] at ho'
      cases v with
      | arr items =>
        dsimp only [Json.items?] at ho'
        split at ho'
        · rename_i xs hxs
          cases ho'
          cases room with
          | zero => exact hread.elim
          | succ room => exact congrArg some (toJson_numbers hxs hread)
        · cases ho'
      | _ => cases ho'
  · obtain ⟨o', ho', rfl⟩ := map_eq_ok.1 h
    simp only [Body.Source.ofMembers] at ho'
    cases hv : params.lookup p.name with
    | none =>
      rw [hv] at ho'
      cases ho'
      rfl
    | some v =>
      have hread := hr.2 _ (Table.mem_of_lookup hv)
      rw [hv] at ho'
      cases v with
      | num n =>
        cases ho'
        rw [Json.Readable.eq_def] at hread
        exact congrArg some (toJson_number hread)
      | _ => cases ho'

theorem lookup_keptParameters (k : Kind) (params : List (String × Json)) (key : String) :
    (keptParameters k params).lookup key =
      if (k.parameter? key).isSome then (params.lookup key).map Json.floated else none := by
  rw [keptParameters, Table.lookup_map fun _ => Json.floated,
    Table.lookup_filter fun key => (k.parameter? key).isSome]
  split <;> rfl

theorem nodup_keys_keptParameters {k : Kind} {params : List (String × Json)}
    (h : (Table.keys params).Nodup) : (Table.keys (keptParameters k params)).Nodup := by
  have hkeys : Table.keys (keptParameters k params) =
      Table.keys (params.filter fun m => (k.parameter? m.1).isSome) := by
    simp [Table.keys, keptParameters]
  rw [hkeys]
  exact (List.filter_sublist.map Prod.fst).nodup h

namespace Element

theorem ofJson_pair_eq_ok {name : String} {k : Kind} {params : List (String × Json)} {e : Element}
    (h : ofJson name (.arr [.str k.tag, .obj params]) = .ok e) :
    e.name = name ∧ e.info = (params.lookup Parameter.info.name).bind Json.text? ∧
      Body.ofSource k (.ofMembers params) = .ok e.body := by
  have hk : kindOfJson? (.arr [.str k.tag, .obj params]) = some k := by
    simp only [kindOfJson?, Json.at?, Json.items?, Option.bind_some, List.getElem?_cons_zero,
      Json.text?, Kind.ofTag?_tag]
  simp only [ofJson, hk] at h
  obtain ⟨b, hb, h⟩ := bind_eq_ok.1 h
  cases h
  exact ⟨rfl, rfl, mapError_eq_ok.1 hb⟩

/-- An element has all parameters of its entry that its kind has. -/
theorem parameters_perm {lenient : Prop} {name : String} {k : Kind}
    {params : List (String × Json)} {e : Element}
    (h : ofJson name (.arr [.str k.tag, .obj params]) = .ok e)
    (hparams : WellFormedParameters lenient k params) {room : Nat}
    (hr : Json.Readable (room + 1) (.obj params)) :
    e.kind = k ∧ e.parameters.Perm (keptParameters k params) := by
  obtain ⟨-, hinfo, hbody⟩ := ofJson_pair_eq_ok h
  obtain ⟨hkind, hsettings⟩ := Body.settings_of_ofSource hbody
  refine ⟨hkind, Table.perm_of_lookup e.nodup_keys_parameters (nodup_keys_keptParameters hr.1)
    fun key => ?_⟩
  rw [lookup_keptParameters]
  cases hp : k.parameter? key with
  | none =>
    -- the element has no parameter that its kind does not have
    rw [if_neg (by simp), Table.lookup_eq_none]
    intro hmem
    obtain ⟨v, hv⟩ := Table.mem_keys.1 hmem
    have hno := Kind.parameter?_eq_none_iff.1 hp
    rcases mem_parameters_iff.1 hv with ⟨p, q, hq, hname, -⟩ | ⟨s, -, hname, -⟩
    · obtain ⟨-, slot, hslot, heq⟩ := e.body.slot_of_mem_settings _ (Body.mem_fields_iff.1 hq)
      rw [hkind] at hslot
      exact hno slot hslot (by rw [heq]; exact hname)
    · exact hno ⟨.info, false⟩ (List.mem_append_right _ List.mem_cons_self) hname.symm
  | some p =>
    rw [if_pos Option.isSome_some]
    obtain ⟨slot, hslot, rfl, rfl⟩ := Kind.parameter?_eq_some_iff.1 hp
    by_cases hremark : slot.parameter = .info
    · rw [hremark, lookup_parameters_info, hinfo]
      cases hv : params.lookup Parameter.info.name with
      | none => rfl
      | some v =>
        have hfits := hparams.fits slot hslot v
        rw [hremark] at hfits
        obtain ⟨s, rfl⟩ := hfits (Table.mem_of_lookup hv)
        rfl
    · obtain ⟨o, ho, -⟩ := e.body.mem_settings_of_slot slot (hkind ▸ hslot) hremark
      rw [lookup_parameters hremark, Body.lookup_fields ho]
      exact toJson_of_quantity? hr (hsettings _ ho)

/-- What is left of a well-formed entry is the raw form of the element that it describes. -/
theorem entryKept_of_ofJson {lenient : Prop} {m : String × Json} {e : Element}
    (h : WellFormedElement lenient m.1 m.2) (he : ofJson m.1 m.2 = .ok e) {room : Nat}
    (hr : Json.Readable room m.2) : EntryKept lenient m (e.name, e.toJson) := by
  obtain ⟨name, entry⟩ := m
  obtain ⟨k, params, rfl, hparams⟩ := h.pair
  obtain ⟨rfl, -, -⟩ := ofJson_pair_eq_ok he
  have hobj : ∃ room, Json.Readable (room + 1) (.obj params) := by
    cases room with
    | zero => exact hr.elim
    | succ room =>
      have hobj : Json.Readable room (.obj params) := hr _ (by simp)
      cases room with
      | zero => exact hobj.elim
      | succ room => exact ⟨room, hobj⟩
  obtain ⟨room, hobj⟩ := hobj
  obtain ⟨rfl, hperm⟩ := parameters_perm he hparams hobj
  refine .pair hperm (hparams.known.imp id fun hknown m hm => ?_)
  obtain ⟨slot, hslot, hname⟩ := hknown m hm
  rw [Kind.parameter?_eq_some_iff.2 ⟨slot, hslot, rfl, hname⟩]
  rfl

end Element

/-! ## The members of a document -/

namespace Document

variable {d : Document} {doc : List (String × Json)}

theorem lookup_members_of_notMem {key : String} (hkey : key ∉ documentKeys) :
    d.members.lookup key = d.extras.lookup key := by
  have hknown : ∀ k ∈ documentKeys, (key == k) = false := by
    intro k hk
    rw [beq_eq_false_iff_ne]
    rintro rfl
    exact hkey hk
  have hversion := hknown "version" (by decide)
  have htitle := hknown "title" (by decide)
  have hinfo := hknown "info" (by decide)
  have hroot := hknown "root" (by decide)
  have helements := hknown "elements" (by decide)
  have hlattices := hknown "lattices" (by decide)
  obtain ⟨version, title, info, root, elements, lattices, extras⟩ := d
  cases title <;> cases info <;> cases root <;>
    simp [members, List.lookup_cons, hversion, htitle, hinfo, hroot, helements, hlattices]

theorem elements_of_ofJson {elements : List (String × Json)}
    (helements : doc.lookup "elements" = some (.obj elements)) (h : ofJson (.obj doc) = .ok d) :
    List.Forall₂ (fun m e => Element.ofJson m.1 m.2 = .ok e) elements d.elements := by
  obtain ⟨es, hes, h⟩ := bind_eq_ok.1 h
  obtain ⟨ls, -, h⟩ := bind_eq_ok.1 h
  simp only [tableOf, helements, Json.members?] at hes
  split at h
  · cases h
  · cases h
    exact mapM_eq_ok.1 hes

/-- What is written for a member of a raw value. -/
def keptMember (d : Document) (key : String) (v : Json) : Json :=
  if key = "version" then .str d.version.text
  else if key = "elements" then .obj d.elementTable
  else v

/-- The members of a document that describes an object are those of the object, as they are written
again. -/
theorem lookup_members_of_describes {policy : Policy} {elements lattices : List (String × Json)}
    (h : WellFormedObject policy doc d.version elements lattices)
    (hd : Describes doc elements lattices d) (hextras : ∀ m ∈ d.extras, m.1 ∉ documentKeys)
    (key : String) : d.members.lookup key = (doc.lookup key).map (d.keptMember key) := by
  have hmembers := members_members hextras
  have htext : ∀ (key : String) (o : Option String), key ≠ "version" → key ≠ "elements" →
      o.map Json.str = (o.map Json.str).map (d.keptMember key) := by
    intro key o hversion helements
    cases o with
    | none => rfl
    | some s => rw [Option.map_some, Option.map_some, keptMember, if_neg hversion, if_neg helements]
  by_cases hkey : key ∈ documentKeys
  · simp only [documentKeys, List.mem_cons, List.not_mem_nil, or_false] at hkey
    rcases hkey with rfl | rfl | rfl | rfl | rfl | rfl
    · obtain ⟨text, hversion, -⟩ := h.spelled
      rw [hmembers.version, hversion]
      rfl
    · rw [hmembers.title, hd.title]
      exact htext _ _ (by decide) (by decide)
    · rw [hmembers.info, hd.info]
      exact htext _ _ (by decide) (by decide)
    · rw [hmembers.root, hd.root]
      exact htext _ _ (by decide) (by decide)
    · rw [hmembers.elements, h.elementTable]
      rfl
    · rw [hmembers.lattices, h.latticeTable, hd.lattices]
      rfl
  · have hunknown : (!knownKeys.contains key) = true := by
      rw [Bool.not_eq_true', ← Bool.not_eq_true, List.contains_iff_mem]
      exact hkey
    rw [lookup_members_of_notMem hkey, hd.extras,
      Table.lookup_filter fun key => !knownKeys.contains key, if_pos hunknown]
    cases doc.lookup key with
    | none => rfl
    | some v =>
      rw [Option.map_some, keptMember, if_neg, if_neg]
      · rintro rfl
        exact hkey (by decide)
      · rintro rfl
        exact hkey (by decide)

/-- A document that was decoded keeps what was read. -/
theorem kept_of_decode {policy : Policy} {text : String} {v : Json}
    (hparse : Json.parse text = .ok v) (hdecode : decode policy text = .ok d) :
    Kept policy v d := by
  obtain ⟨w, hw, hwell, hd⟩ := decode_eq_ok_iff.1 hdecode
  rw [hparse] at hw
  cases hw
  obtain ⟨doc, version, elements, lattices, rfl, hdoc⟩ := hwell
  have hr := Json.parse_readable hparse
  obtain ⟨d', hd', rfl, hdescribes⟩ := exists_describes hdoc hr
  rw [hd] at hd'
  cases hd'
  obtain ⟨hlawful, -⟩ := lawful_of_describes hdoc hdescribes hr
  have hentries : List.Forall₂ (EntryKept (policy.mode = .lenient ∨ 0 < d.version.minor)) elements
      d.elementTable := by
    have hread : ∀ m ∈ elements, WellFormedElement _ m.1 m.2 ∧ Json.Readable _ m.2 := fun m hm =>
      ⟨hdoc.element m.1 m.2 hm, (hr.2 _ (Table.mem_of_lookup hdoc.elementTable)).2 m hm⟩
    rw [elementTable, List.forall₂_map_right_iff]
    refine ((List.forall₂_and_left elements d.elements).2
      ⟨hread, elements_of_ofJson hdoc.elementTable hd⟩).imp fun m e h => ?_
    exact Element.entryKept_of_ofJson h.1.1 h.2 h.1.2
  refine ⟨doc, doc.map fun m => (m.1, d.keptMember m.1 m.2), d.members, rfl, rfl,
    Table.perm_of_lookup (nodup_keys_members hlawful) ?_ fun key => ?_, ?_⟩
  · simpa [Table.keys, Function.comp_def] using hr.1
  · rw [Table.lookup_map d.keptMember, lookup_members_of_describes hdoc hdescribes hlawful.extras]
  · rw [List.forall₂_map_right_iff, List.forall₂_same]
    rintro ⟨key, v⟩ hm
    have hlookup := Table.lookup_of_mem hr.1 hm
    dsimp only [keptMember]
    split
    · rename_i hkey
      subst hkey
      obtain ⟨text, hversion, hspelled⟩ := hdoc.spelled
      rw [hversion] at hlookup
      cases hlookup
      exact .version hspelled
    split
    · rename_i hkey
      subst hkey
      rw [hdoc.elementTable] at hlookup
      cases hlookup
      exact .elements hentries
    · rename_i hversion helements
      exact .other hversion helements

/-- `kept_of_decode` for a document of a later minor version. -/
theorem kept_laterText : ∃ v d, Json.parse laterText = .ok v ∧
    decode .standard laterText = .ok d ∧ Kept .standard v d := by
  have h := isSome_decode_laterText
  cases hd : decode .standard laterText with
  | error e => rw [hd] at h; cases h
  | ok d =>
    obtain ⟨v, hv, -⟩ := decode_eq_ok_iff.1 hd
    exact ⟨v, d, hv, rfl, kept_of_decode hv hd⟩

end Document

end Beamline

import Beamline.Document.Decode
import Beamline.Document.Encode
import Beamline.Proofs.Bind
import Beamline.Proofs.Json.Reader
import Beamline.Proofs.Validation.Elements

/-!
# Elements and their raw forms

* `Body.mem_settings_of_slot`, `Body.form_of_mem_fields` : a body has the parameters of its kind,
  each of its form;
* `Element.Lawful` : the name is not empty, the numbers are finite, the length is not negative;
* `Element.wellFormed_toJson` : the raw form of such an element is well formed;
* `Element.ofJson_toJson` : and describes the element;
* `Element.exists_ofJson` : a well-formed entry describes such an element.
-/

namespace Beamline

open Validation

/-! ## The parameters of a body -/

/-- The form that a quantity has. -/
def Quantity.form : Quantity → Form
  | number _ => .number
  | numbers _ => .numbers

/-- All numbers of a quantity are finite. -/
def Quantity.Finite : Quantity → Prop
  | number x => x.isFinite
  | numbers xs => ∀ x ∈ xs, x.isFinite

namespace Body

/-- A body has all parameters of its kind but the remark, and values for those required. -/
theorem mem_settings_of_slot (b : Body) : ∀ s ∈ b.kind.slots, s.parameter ≠ .info →
    ∃ o, (s.parameter, o) ∈ b.settings ∧ (s.required → o.isSome) := by
  cases b <;> simp [kind, Kind.slots, settings]

theorem slot_of_mem_settings (b : Body) : ∀ m ∈ b.settings,
    m.1 ≠ .info ∧ ∃ s ∈ b.kind.slots, s.parameter = m.1 := by
  cases b <;> simp [kind, Kind.slots, settings]

theorem form_of_mem_settings (b : Body) : ∀ m ∈ b.settings, ∀ q ∈ m.2, q.form = m.1.form := by
  cases b <;> simp [settings, Parameter.form, Quantity.form]

theorem nodup_keys_settings (b : Body) : (Table.keys b.settings).Nodup := by
  cases b <;> simp [settings, Table.keys]

theorem mem_fields_iff {b : Body} {p : Parameter} {q : Quantity} :
    (p, q) ∈ b.fields ↔ (p, some q) ∈ b.settings := by
  simp [fields]

theorem keys_filterMap_sublist (settings : List (Parameter × Option Quantity)) :
    (Table.keys (settings.filterMap fun s => s.2.map (s.1, ·))).Sublist (Table.keys settings) := by
  induction settings with
  | nil => exact List.Sublist.refl _
  | cons m settings ih =>
    obtain ⟨p, o⟩ := m
    cases o with
    | none => exact ih.cons _
    | some q => exact ih.cons_cons _

theorem nodup_keys_fields (b : Body) : (Table.keys b.fields).Nodup :=
  (keys_filterMap_sublist b.settings).nodup b.nodup_keys_settings

theorem length_eq (b : Body) :
    (∃ x, (.length, .number x) ∈ b.fields ∧ b.length = x) ∨ b.length = 0 := by
  cases b with
  | kicker l hkick vkick => cases l <;> simp [fields, settings, length]
  | monitor l => cases l <;> simp [fields, settings, length]
  | _ => simp [fields, settings, length]

theorem length_of_mem_fields {b : Body} {x : Float} (h : (.length, .number x) ∈ b.fields) :
    b.length = x := by
  rw [mem_fields_iff] at h
  cases b <;> simp_all [settings, length]

end Body

/-! ## Raw quantities -/

namespace Quantity

theorem ofFloat_of_isFinite {x : Float} (h : x.isFinite) : Json.ofFloat x = .num (.float x) :=
  if_pos h

theorem fits_toJson {q : Quantity} (h : q.Finite) : q.form.Fits q.toJson := by
  cases q with
  | number x => exact ⟨_, ofFloat_of_isFinite h⟩
  | numbers xs =>
    refine ⟨_, rfl, fun item hitem => ?_⟩
    obtain ⟨x, hx, rfl⟩ := List.mem_map.1 hitem
    exact ⟨_, ofFloat_of_isFinite (h x hx)⟩

theorem isFinite_of_ofFloat {x : Float} {n : Number} (h : Json.ofFloat x = .num n) :
    x.isFinite := by
  unfold Json.ofFloat at h
  split at h
  · assumption
  · cases h

theorem finite_of_fits {q : Quantity} (h : q.form.Fits q.toJson) : q.Finite := by
  cases q with
  | number x =>
    obtain ⟨n, hn⟩ := h
    exact isFinite_of_ofFloat hn
  | numbers xs =>
    obtain ⟨items, heq, hitems⟩ := h
    intro x hx
    obtain ⟨n, hn⟩ := hitems (.ofFloat x) (by rw [← Json.arr.inj heq]; exact List.mem_map_of_mem hx)
    exact isFinite_of_ofFloat hn

theorem agrees_self {q : Quantity} (h : q.Finite) : q.agrees q = true := by
  cases q with
  | number x => exact Decimal.beq_self_of_isFinite h
  | numbers xs =>
    induction xs with
    | nil => rfl
    | cons x xs ih =>
      obtain ⟨hx, hxs⟩ := List.forall_mem_cons.1 h
      show (x == x && xs == xs) = true
      rw [Decimal.beq_self_of_isFinite hx, Bool.true_and]
      exact ih hxs

theorem mapM_float? {xs : List Float} (h : ∀ x ∈ xs, x.isFinite) :
    (xs.map Json.ofFloat).mapM Json.float? = some xs := by
  induction xs with
  | nil => rfl
  | cons x xs ih =>
    obtain ⟨hx, hxs⟩ := List.forall_mem_cons.1 h
    rw [List.map_cons, List.mapM_cons, ofFloat_of_isFinite hx, ih hxs]
    rfl

end Quantity

namespace Element

/-! ## Writing an element -/

/-- The name is not empty, the numbers are finite, the length is not negative. -/
structure Lawful (e : Element) : Prop where
  named : e.name ≠ ""
  finite : ∀ p q, (p, q) ∈ e.body.fields → q.Finite
  length : ¬ e.length < 0

theorem mem_parameters_iff {e : Element} {key : String} {v : Json} : (key, v) ∈ e.parameters ↔
    (∃ p q, (p, q) ∈ e.body.fields ∧ p.name = key ∧ q.toJson = v) ∨
      ∃ s, e.info = some s ∧ key = Parameter.info.name ∧ v = .str s := by
  simp only [parameters, List.mem_append, List.mem_map, Prod.mk.injEq, Prod.exists,
    Option.mem_toList]
  refine or_congr Iff.rfl ⟨?_, ?_⟩
  · rintro ⟨s, hs, rfl, rfl⟩
    exact ⟨s, hs, rfl, rfl⟩
  · rintro ⟨s, hs, rfl, rfl⟩
    exact ⟨s, hs, rfl, rfl⟩

theorem mem_parameters_name {e : Element} {p : Parameter} {v : Json}
    (h : (p.name, v) ∈ e.parameters) :
    (∃ q, (p, q) ∈ e.body.fields ∧ q.toJson = v) ∨ p = .info ∧ ∃ s, v = .str s := by
  rcases mem_parameters_iff.1 h with ⟨p', q, hq, hname, hv⟩ | ⟨s, -, hname, hv⟩
  · rw [Parameter.name_injective hname] at hq
    exact .inl ⟨q, hq, hv⟩
  · exact .inr ⟨Parameter.name_injective hname, s, hv⟩

/-- The parameters of a lawful element are well formed, to a strict reader too. -/
theorem wellFormed_parameters {e : Element} (he : e.Lawful) (lenient : Prop) :
    WellFormedParameters lenient e.kind e.parameters := by
  refine ⟨fun s hs hreq => ?_, fun s hs v hv => ?_, fun s hs hlength n hn hlt => ?_,
    .inr fun m hm => ?_⟩
  · have hinfo : s.parameter ≠ .info := by
      intro h
      have : ∀ k : Kind, ∀ s ∈ k.slots, s.parameter = .info → s.required = false := by
        intro k
        cases k <;> decide
      rw [this _ s hs h] at hreq
      cases hreq
    obtain ⟨o, ho, hsome⟩ := e.body.mem_settings_of_slot s hs hinfo
    obtain ⟨q, rfl⟩ := Option.isSome_iff_exists.1 (hsome hreq)
    exact ⟨_, mem_parameters_iff.2 (.inl ⟨_, q, Body.mem_fields_iff.2 ho, rfl, rfl⟩)⟩
  · rcases mem_parameters_name hv with ⟨q, hq, rfl⟩ | ⟨hinfo, s', rfl⟩
    · rw [← e.body.form_of_mem_settings _ (Body.mem_fields_iff.1 hq) q rfl]
      exact Quantity.fits_toJson (he.finite _ q hq)
    · rw [hinfo]
      exact ⟨s', rfl⟩
  · rcases mem_parameters_name hn with ⟨q, hq, hv⟩ | ⟨hinfo, s', hv⟩
    · rw [hlength] at hq
      have hform := e.body.form_of_mem_settings _ (Body.mem_fields_iff.1 hq) q rfl
      cases q with
      | number x =>
        rw [Quantity.toJson, Quantity.ofFloat_of_isFinite (he.finite _ _ hq)] at hv
        cases hv
        apply he.length
        rw [Element.length, Body.length_of_mem_fields hq]
        exact hlt
      | numbers xs => cases hform
    · cases hv
  · obtain ⟨key, v⟩ := m
    rcases mem_parameters_iff.1 hm with ⟨p, q, hq, hname, -⟩ | ⟨s, -, hname, -⟩
    · obtain ⟨-, slot, hslot, hp⟩ := e.body.slot_of_mem_settings _ (Body.mem_fields_iff.1 hq)
      exact ⟨slot, hslot, by rw [hp]; exact hname⟩
    · refine ⟨⟨.info, false⟩, ?_, hname.symm⟩
      exact List.mem_append_right _ List.mem_cons_self

theorem nodup_keys_parameters (e : Element) : (Table.keys e.parameters).Nodup := by
  have hfields : (Table.keys (e.body.fields.map fun f => (f.1.name, f.2.toJson))).Nodup := by
    have := e.body.nodup_keys_fields.map Parameter.name_injective
    simpa [Table.keys, Function.comp_def] using this
  rw [Table.keys, parameters, List.map_append, List.nodup_append]
  refine ⟨hfields, ?_, fun key hkey key' hkey' => ?_⟩
  · cases e.info <;> simp
  · obtain ⟨s, -, rfl⟩ : ∃ s, e.info = some s ∧ Parameter.info.name = key' := by
      simpa using hkey'
    rintro rfl
    obtain ⟨v, hv⟩ := Table.mem_keys.1 hkey
    obtain ⟨⟨p, q⟩, hq, heq⟩ := List.mem_map.1 hv
    exact (e.body.slot_of_mem_settings _ (Body.mem_fields_iff.1 hq)).1
      (Parameter.name_injective (Prod.mk.inj heq).1)

theorem readable_ofFloat (x : Float) (room : Nat) : Json.Readable room (.ofFloat x) := by
  rw [Json.Readable.eq_def, Json.ofFloat]
  split_ifs with hx
  · exact hx
  · trivial

/-- The raw form of an element can be spelled. -/
theorem readable_toJson (e : Element) (room : Nat) : Json.Readable (room + 3) e.toJson := by
  have hparams : Json.Readable (room + 2) (.obj e.parameters) := by
    refine ⟨e.nodup_keys_parameters, fun m hm => ?_⟩
    obtain ⟨key, v⟩ := m
    rcases mem_parameters_iff.1 hm with ⟨p, q, -, -, rfl⟩ | ⟨s, -, -, rfl⟩
    · cases q with
      | number x => exact readable_ofFloat x _
      | numbers xs =>
        intro v hv
        obtain ⟨x, -, rfl⟩ := List.mem_map.1 hv
        exact readable_ofFloat x _
    · trivial
  intro v hv
  rcases List.mem_cons.1 hv with rfl | hv
  · trivial
  · rw [List.mem_singleton.1 hv]
    exact hparams

theorem wellFormed_toJson {e : Element} (he : e.Lawful) (lenient : Prop) :
    WellFormedElement lenient e.name e.toJson :=
  ⟨he.named, e.kind, e.parameters, rfl, wellFormed_parameters he lenient⟩

/-- Only a lawful element has a raw form that is well formed. -/
theorem lawful_of_wellFormed {e : Element} {lenient : Prop}
    (h : WellFormedElement lenient e.name e.toJson) : e.Lawful := by
  obtain ⟨k, params, heq, hparams⟩ := h.pair
  obtain ⟨htag, rfl⟩ : Json.str e.kind.tag = .str k.tag ∧ e.parameters = params := by
    simpa [toJson] using heq
  obtain rfl : k = e.kind := by
    have := Kind.ofTag?_tag k
    rw [← Json.str.inj htag, Kind.ofTag?_tag] at this
    exact (Option.some.inj this).symm
  have hfinite : ∀ p q, (p, q) ∈ e.body.fields → q.Finite := by
    intro p q hq
    obtain ⟨-, slot, hslot, hp⟩ := e.body.slot_of_mem_settings _ (Body.mem_fields_iff.1 hq)
    have hfits := hparams.fits slot hslot q.toJson
      (mem_parameters_iff.2 (.inl ⟨p, q, hq, by rw [hp], rfl⟩))
    rw [hp, ← e.body.form_of_mem_settings _ (Body.mem_fields_iff.1 hq) q rfl] at hfits
    exact Quantity.finite_of_fits hfits
  refine ⟨h.named, hfinite, ?_⟩
  rw [length]
  rcases e.body.length_eq with ⟨x, hx, hlength⟩ | hlength
  · obtain ⟨-, slot, hslot, hp⟩ := e.body.slot_of_mem_settings _ (Body.mem_fields_iff.1 hx)
    have hmem : (slot.parameter.name, Json.num (.float x)) ∈ e.parameters :=
      mem_parameters_iff.2 (.inl ⟨_, _, hx, by rw [hp],
        Quantity.ofFloat_of_isFinite (hfinite _ _ hx)⟩)
    have hlow := hparams.length slot hslot hp _ hmem
    rw [hlength]
    exact hlow
  · rw [hlength]
    decide

theorem lookup_map_name {β : Type} (g : Quantity → β) (fields : List (Parameter × Quantity))
    (p : Parameter) :
    (fields.map fun f => (f.1.name, g f.2)).lookup p.name = (fields.lookup p).map g := by
  induction fields with
  | nil => rfl
  | cons f fields ih =>
    obtain ⟨p', q⟩ := f
    rw [List.map_cons, List.lookup_cons, List.lookup_cons, ih]
    have hbeq : (p.name == p'.name) = (p == p') := by
      rw [Bool.eq_iff_iff, beq_iff_eq, beq_iff_eq, Parameter.name_injective.eq_iff]
    rw [hbeq]
    split <;> rfl

/-- The raw parameter of an element, apart from its remark. -/
theorem lookup_parameters {e : Element} {p : Parameter} (hp : p ≠ .info) :
    e.parameters.lookup p.name = (e.body.fields.lookup p).map Quantity.toJson := by
  have hinfo : (e.info.toList.map fun s => (Parameter.info.name, Json.str s)).lookup p.name =
      none := by
    rw [Table.lookup_eq_none]
    intro h
    obtain ⟨v, hv⟩ := Table.mem_keys.1 h
    obtain ⟨s, -, heq⟩ := List.mem_map.1 hv
    exact hp (Parameter.name_injective (Prod.mk.inj heq).1.symm)
  rw [parameters, List.lookup_append, lookup_map_name, hinfo, Option.or_none]

theorem lookup_parameters_info (e : Element) :
    e.parameters.lookup Parameter.info.name = e.info.map Json.str := by
  have hfields : e.body.fields.lookup .info = none := by
    rw [Table.lookup_eq_none]
    intro h
    obtain ⟨q, hq⟩ := Table.mem_keys.1 h
    exact (e.body.slot_of_mem_settings _ (Body.mem_fields_iff.1 hq)).1 rfl
  rw [parameters, List.lookup_append, lookup_map_name, hfields, Option.map_none, Option.none_or]
  cases e.info with
  | none => rfl
  | some s => simp

/-! ## Reading it back -/

/-- A body depends on its source only where the parameters of its kind are. -/
theorem ofSource_congr {k : Kind} {s t : Body.Source}
    (hnumber : ∀ p ≠ .info, s.number? p = t.number? p)
    (hnumbers : ∀ p ≠ .info, s.numbers? p = t.numbers? p) :
    Body.ofSource k s = Body.ofSource k t := by
  cases k <;> simp [Body.ofSource, Body.Source.number, Body.Source.numbers, hnumber, hnumbers]

/-- The raw form of a lawful element describes the element. -/
theorem ofJson_toJson {e : Element} (he : e.Lawful) : ofJson e.name e.toJson = .ok e := by
  have hbody : Body.ofSource e.kind (.ofMembers e.parameters) = .ok e.body := by
    rw [← Body.ofSource_lookup_fields e.body]
    refine ofSource_congr (fun p hp => ?_) (fun p hp => ?_)
    all_goals
      simp only [Body.Source.ofMembers, Body.Source.ofQuantities, lookup_parameters hp]
      cases hq : e.body.fields.lookup p with
      | none => rfl
      | some q =>
        have hfinite := he.finite p q (Table.mem_of_lookup hq)
        cases q with
        | number x =>
          simp only [Option.map_some, Quantity.toJson, Quantity.ofFloat_of_isFinite hfinite]
          rfl
        | numbers xs =>
          simp only [Option.map_some, Quantity.toJson, Json.items?, Json.float?,
            Quantity.mapM_float? hfinite]
  have hkind : kindOfJson? e.toJson = some e.kind := by
    simp only [kindOfJson?, toJson, Json.at?, Json.items?, Option.bind_some,
      List.getElem?_cons_zero, Json.text?, Kind.ofTag?_tag]
  simp only [ofJson, hkind]
  change (Body.ofSource e.kind (.ofMembers e.parameters)).mapError _ >>= _ = _
  rw [hbody, lookup_parameters_info]
  cases e with
  | mk name info body => cases info <;> rfl

end Element

/-! ## Reading an entry -/

section Provides

/-- A source has a value of the right form for a slot, at least if it is required, and the value
satisfies `P`. -/
structure Provides (P : Parameter → Quantity → Prop) (s : Body.Source) (slot : Slot) : Prop where
  number : slot.parameter.form = .number → ∃ o, s.number? slot.parameter = .ok o ∧
    (slot.required → o.isSome) ∧ ∀ q ∈ o.map Quantity.number, P slot.parameter q
  numbers : slot.parameter.form = .numbers → ∃ o, s.numbers? slot.parameter = .ok o ∧
    (slot.required → o.isSome) ∧ ∀ q ∈ o.map Quantity.numbers, P slot.parameter q

variable {P : Parameter → Quantity → Prop} {s : Body.Source} {p : Parameter}

theorem Provides.requiredNumber (h : Provides P s ⟨p, true⟩) (hp : p.form = .number) :
    ∃ x, s.number p = .ok x ∧ ∀ q ∈ some (Quantity.number x), P p q := by
  obtain ⟨o, ho, hsome, hP⟩ := h.number hp
  obtain ⟨x, rfl⟩ := Option.isSome_iff_exists.1 (hsome rfl)
  exact ⟨x, bind_eq_ok.2 ⟨_, ho, rfl⟩, hP⟩

theorem Provides.requiredNumbers (h : Provides P s ⟨p, true⟩) (hp : p.form = .numbers) :
    ∃ xs, s.numbers p = .ok xs ∧ ∀ q ∈ some (Quantity.numbers xs), P p q := by
  obtain ⟨o, ho, hsome, hP⟩ := h.numbers hp
  obtain ⟨xs, rfl⟩ := Option.isSome_iff_exists.1 (hsome rfl)
  exact ⟨xs, bind_eq_ok.2 ⟨_, ho, rfl⟩, hP⟩

theorem Provides.optionalNumber (h : Provides P s ⟨p, false⟩) (hp : p.form = .number) :
    ∃ o, s.number? p = .ok o ∧ ∀ q ∈ o.map Quantity.number, P p q := by
  obtain ⟨o, ho, -, hP⟩ := h.number hp
  exact ⟨o, ho, hP⟩

theorem Provides.optionalNumbers (h : Provides P s ⟨p, false⟩) (hp : p.form = .numbers) :
    ∃ o, s.numbers? p = .ok o ∧ ∀ q ∈ o.map Quantity.numbers, P p q := by
  obtain ⟨o, ho, -, hP⟩ := h.numbers hp
  exact ⟨o, ho, hP⟩

/-- A source that provides for all slots of a kind gives a body of that kind. -/
theorem exists_ofSource {k : Kind} (h : ∀ slot ∈ k.slots, Provides P s slot) :
    ∃ b, Body.ofSource k s = .ok b ∧ b.kind = k ∧ ∀ p q, (p, q) ∈ b.fields → P p q := by
  -- the fields are the settings that have a value
  suffices hsettings : ∃ b, Body.ofSource k s = .ok b ∧ b.kind = k ∧
      ∀ m ∈ b.settings, ∀ q ∈ m.2, P m.1 q by
    obtain ⟨b, hb, hkind, hP⟩ := hsettings
    exact ⟨b, hb, hkind, fun p q hq => hP _ (Body.mem_fields_iff.1 hq) q rfl⟩
  cases k with
  | drift =>
    obtain ⟨l, hl, hlP⟩ := (h ⟨.length, true⟩ (by decide)).requiredNumber rfl
    refine ⟨.drift l, by simp only [Body.ofSource, hl]; rfl, rfl, ?_⟩
    exact List.forall_mem_singleton.2 hlP
  | dipole =>
    obtain ⟨l, hl, hlP⟩ := (h ⟨.length, true⟩ (by decide)).requiredNumber rfl
    obtain ⟨a, ha, haP⟩ := (h ⟨.angle, true⟩ (by decide)).requiredNumber rfl
    obtain ⟨e1, he1, he1P⟩ := (h ⟨.e1, false⟩ (by decide)).optionalNumber rfl
    obtain ⟨e2, he2, he2P⟩ := (h ⟨.e2, false⟩ (by decide)).optionalNumber rfl
    obtain ⟨k1, hk1, hk1P⟩ := (h ⟨.k1, false⟩ (by decide)).optionalNumber rfl
    refine ⟨.dipole l a e1 e2 k1, by simp only [Body.ofSource, hl, ha, he1, he2, hk1]; rfl, rfl, ?_⟩
    exact List.forall_mem_cons.2 ⟨hlP, List.forall_mem_cons.2 ⟨haP, List.forall_mem_cons.2 ⟨he1P,
      List.forall_mem_cons.2 ⟨he2P, List.forall_mem_singleton.2 hk1P⟩⟩⟩⟩
  | quadrupole =>
    obtain ⟨l, hl, hlP⟩ := (h ⟨.length, true⟩ (by decide)).requiredNumber rfl
    obtain ⟨k1, hk1, hk1P⟩ := (h ⟨.k1, false⟩ (by decide)).optionalNumber rfl
    refine ⟨.quadrupole l k1, by simp only [Body.ofSource, hl, hk1]; rfl, rfl, ?_⟩
    exact List.forall_mem_cons.2 ⟨hlP, List.forall_mem_singleton.2 hk1P⟩
  | sextupole =>
    obtain ⟨l, hl, hlP⟩ := (h ⟨.length, true⟩ (by decide)).requiredNumber rfl
    obtain ⟨k2, hk2, hk2P⟩ := (h ⟨.k2, false⟩ (by decide)).optionalNumber rfl
    refine ⟨.sextupole l k2, by simp only [Body.ofSource, hl, hk2]; rfl, rfl, ?_⟩
    exact List.forall_mem_cons.2 ⟨hlP, List.forall_mem_singleton.2 hk2P⟩
  | octupole =>
    obtain ⟨l, hl, hlP⟩ := (h ⟨.length, true⟩ (by decide)).requiredNumber rfl
    obtain ⟨k3, hk3, hk3P⟩ := (h ⟨.k3, false⟩ (by decide)).optionalNumber rfl
    refine ⟨.octupole l k3, by simp only [Body.ofSource, hl, hk3]; rfl, rfl, ?_⟩
    exact List.forall_mem_cons.2 ⟨hlP, List.forall_mem_singleton.2 hk3P⟩
  | solenoid =>
    obtain ⟨l, hl, hlP⟩ := (h ⟨.length, true⟩ (by decide)).requiredNumber rfl
    obtain ⟨ks, hks, hksP⟩ := (h ⟨.ks, false⟩ (by decide)).optionalNumber rfl
    refine ⟨.solenoid l ks, by simp only [Body.ofSource, hl, hks]; rfl, rfl, ?_⟩
    exact List.forall_mem_cons.2 ⟨hlP, List.forall_mem_singleton.2 hksP⟩
  | cavity =>
    obtain ⟨l, hl, hlP⟩ := (h ⟨.length, true⟩ (by decide)).requiredNumber rfl
    obtain ⟨v, hv, hvP⟩ := (h ⟨.voltage, false⟩ (by decide)).optionalNumber rfl
    obtain ⟨f, hf, hfP⟩ := (h ⟨.frequency, false⟩ (by decide)).optionalNumber rfl
    obtain ⟨ph, hph, hphP⟩ := (h ⟨.phase, false⟩ (by decide)).optionalNumber rfl
    refine ⟨.cavity l v f ph, by simp only [Body.ofSource, hl, hv, hf, hph]; rfl, rfl, ?_⟩
    exact List.forall_mem_cons.2 ⟨hlP, List.forall_mem_cons.2 ⟨hvP, List.forall_mem_cons.2 ⟨hfP,
      List.forall_mem_singleton.2 hphP⟩⟩⟩
  | kicker =>
    obtain ⟨l, hl, hlP⟩ := (h ⟨.length, false⟩ (by decide)).optionalNumber rfl
    obtain ⟨hk, hhk, hhkP⟩ := (h ⟨.hkick, false⟩ (by decide)).optionalNumber rfl
    obtain ⟨vk, hvk, hvkP⟩ := (h ⟨.vkick, false⟩ (by decide)).optionalNumber rfl
    refine ⟨.kicker l hk vk, by simp only [Body.ofSource, hl, hhk, hvk]; rfl, rfl, ?_⟩
    exact List.forall_mem_cons.2 ⟨hlP, List.forall_mem_cons.2 ⟨hhkP,
      List.forall_mem_singleton.2 hvkP⟩⟩
  | multipole =>
    obtain ⟨kn, hkn, hknP⟩ := (h ⟨.knl, true⟩ (by decide)).requiredNumbers rfl
    obtain ⟨ks, hks, hksP⟩ := (h ⟨.ksl, false⟩ (by decide)).optionalNumbers rfl
    refine ⟨.multipole kn ks, by simp only [Body.ofSource, hkn, hks]; rfl, rfl, ?_⟩
    exact List.forall_mem_cons.2 ⟨hknP, List.forall_mem_singleton.2 hksP⟩
  | monitor =>
    obtain ⟨l, hl, hlP⟩ := (h ⟨.length, false⟩ (by decide)).optionalNumber rfl
    refine ⟨.monitor l, by simp only [Body.ofSource, hl]; rfl, rfl, ?_⟩
    exact List.forall_mem_singleton.2 hlP
  | marker =>
    exact ⟨.marker, rfl, rfl, fun m hm => absurd hm List.not_mem_nil⟩

end Provides

/-- What a parameter of a lawful element may be. -/
def Quantity.Allowed (p : Parameter) (q : Quantity) : Prop :=
  q.Finite ∧ ∀ x, p = .length → q = .number x → ¬ x < 0

theorem mapM_float?_of_numbers {items : List Json} (h : ∀ item ∈ items, ∃ n, item = .num n)
    {room : Nat} (hr : ∀ item ∈ items, Json.Readable room item) :
    ∃ xs, items.mapM Json.float? = some xs ∧ ∀ x ∈ xs, x.isFinite := by
  induction items with
  | nil => exact ⟨[], rfl, fun x hx => absurd hx List.not_mem_nil⟩
  | cons item items ih =>
    obtain ⟨⟨n, rfl⟩, hitems⟩ := List.forall_mem_cons.1 h
    obtain ⟨hn, hr⟩ := List.forall_mem_cons.1 hr
    obtain ⟨xs, hxs, hfinite⟩ := ih hitems hr
    rw [Json.Readable.eq_def] at hn
    refine ⟨n.toFloat :: xs, ?_, List.forall_mem_cons.2 ⟨Number.isFinite_toFloat hn, hfinite⟩⟩
    rw [List.mapM_cons, hxs]
    rfl

/-- Well-formed parameters provide for every slot of their kind. -/
theorem provides_ofMembers {lenient : Prop} {k : Kind} {params : List (String × Json)}
    (h : WellFormedParameters lenient k params) {room : Nat}
    (hr : Json.Readable (room + 1) (.obj params)) {slot : Slot} (hslot : slot ∈ k.slots) :
    Provides Quantity.Allowed (.ofMembers params) slot := by
  have hrequired : params.lookup slot.parameter.name = none → slot.required = true → False := by
    intro hnone hreq
    obtain ⟨v, hv⟩ := h.required slot hslot hreq
    rw [Table.lookup_of_mem hr.1 hv] at hnone
    cases hnone
  refine ⟨fun hform => ?_, fun hform => ?_⟩
  · cases hv : params.lookup slot.parameter.name with
    | none =>
      refine ⟨none, ?_, fun hreq => (hrequired hv hreq).elim, fun q hq => by cases hq⟩
      simp only [Body.Source.ofMembers, hv]
    | some v =>
      have hmem := Table.mem_of_lookup hv
      have hfits := h.fits slot hslot v hmem
      rw [hform] at hfits
      obtain ⟨n, rfl⟩ := hfits
      have hn := hr.2 _ hmem
      rw [Json.Readable.eq_def] at hn
      refine ⟨some n.toFloat, ?_, fun _ => rfl, fun q hq => ?_⟩
      · simp only [Body.Source.ofMembers, hv, Json.float?]
      · cases hq
        refine ⟨Number.isFinite_toFloat hn, fun x hlength hx => ?_⟩
        cases hx
        exact h.length slot hslot hlength n hmem
  · cases hv : params.lookup slot.parameter.name with
    | none =>
      refine ⟨none, ?_, fun hreq => (hrequired hv hreq).elim, fun q hq => by cases hq⟩
      simp only [Body.Source.ofMembers, hv]
    | some v =>
      have hmem := Table.mem_of_lookup hv
      have hfits := h.fits slot hslot v hmem
      rw [hform] at hfits
      obtain ⟨items, rfl, hitems⟩ := hfits
      have hread := hr.2 _ hmem
      cases room with
      | zero => exact hread.elim
      | succ room =>
        obtain ⟨xs, hxs, hfinite⟩ := mapM_float?_of_numbers hitems hread
        refine ⟨some xs, ?_, fun _ => rfl, fun q hq => ?_⟩
        · simp only [Body.Source.ofMembers, hv, Json.items?, hxs]
        · cases hq
          exact ⟨hfinite, fun x _ hx => by cases hx⟩

namespace Element

/-- A well-formed entry describes a lawful element. -/
theorem exists_ofJson {lenient : Prop} {name : String} {entry : Json}
    (h : WellFormedElement lenient name entry) {room : Nat} (hr : Json.Readable room entry) :
    ∃ e, ofJson name entry = .ok e ∧ e.name = name ∧ e.Lawful := by
  obtain ⟨k, params, rfl, hparams⟩ := h.pair
  match room, hr with
  | 1, hr => exact (hr (.obj params) (by simp)).elim
  | room + 2, hr =>
    have hobj : Json.Readable (room + 1) (.obj params) := hr (.obj params) (by simp)
    obtain ⟨b, hb, hkind, hallowed⟩ :=
      exists_ofSource fun slot hslot => provides_ofMembers hparams hobj hslot
    refine ⟨⟨name, (params.lookup Parameter.info.name).bind Json.text?, b⟩, ?_, rfl, h.named,
      fun p q hq => (hallowed p q hq).1, ?_⟩
    · have hk : kindOfJson? (.arr [.str k.tag, .obj params]) = some k := by
        simp only [kindOfJson?, Json.at?, Json.items?, Option.bind_some, List.getElem?_cons_zero,
          Json.text?, Kind.ofTag?_tag]
      simp only [ofJson, hk]
      exact bind_eq_ok.2 ⟨b, mapError_eq_ok.2 hb, rfl⟩
    · rcases b.length_eq with ⟨x, hx, hlength⟩ | hlength
      · rw [Element.length, hlength]
        exact (hallowed _ _ hx).2 x rfl rfl
      · rw [Element.length, hlength]
        decide

/-! ## Equality -/

theorem all_agrees_self {fields : List (Parameter × Quantity)} (h : ∀ f ∈ fields, f.2.Finite) :
    ((fields.zip fields).all fun (x, y) => x.1 == y.1 && x.2.agrees y.2) = true := by
  induction fields with
  | nil => rfl
  | cons f fields ih =>
    obtain ⟨hf, hfields⟩ := List.forall_mem_cons.1 h
    rw [List.zip_cons_cons, List.all_cons, ih hfields, Bool.and_true]
    show (f.1 == f.1 && f.2.agrees f.2) = true
    rw [beq_self_eq_true, Quantity.agrees_self hf, Bool.and_self]

theorem Lawful.agrees_self {e : Element} (he : e.Lawful) : e.agrees e = true := by
  have hfields := all_agrees_self fun f hf => he.finite f.1 f.2 hf
  simp [agrees, Body.agrees, hfields]

end Element

end Beamline

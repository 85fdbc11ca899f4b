import Beamline.Proofs.Deck.Clause
import Beamline.Proofs.Deck.Grammar
import Beamline.Proofs.Deck.Multipole
import Beamline.Proofs.Document.Order

/-!
# The statements of a deck

* `Document.PlainNamed` : documents whose names a deck takes as they are;
* `Document.Portable` : documents whose title MAD-X takes as it is, too;
* `Element.Written` : how an element is written, and what is kept of it;
* `Deck.statements` : the statements that the deck of a document consists of, behind its title;
* `Document.exists_writeDeck`, `Document.writable_of_writeDeck` : the writer succeeds and writes
  them, each on a line of its own, when it can write each element;
* `Document.coded_of_mem_statements` : each is cut as it was written, and its brackets do not nest
  too deep.
-/

namespace Beamline

open Text Deck

/-- The names of the document are plain. -/
structure Document.PlainNames (d : Document) : Prop where
  elements : ∀ e ∈ d.elements, isPlainName e.name
  lattices : ∀ l ∈ d.lattices, isPlainName l.name

/-- The names of the document are plain, and no line is empty. -/
structure Document.PlainNamed (d : Document) : Prop where
  elementNames : ∀ e ∈ d.elements, isPlainName e.name
  latticeNames : ∀ l ∈ d.lattices, isPlainName l.name
  items : ∀ l ∈ d.lattices, l.items ≠ []

/-- The names of the document are plain, no line is empty, and the title needs no escapes. -/
structure Document.Portable (d : Document) : Prop where
  elementNames : ∀ e ∈ d.elements, isPlainName e.name
  latticeNames : ∀ l ∈ d.lattices, isPlainName l.name
  items : ∀ l ∈ d.lattices, l.items ≠ []
  title : ∀ title, d.title = some title → ∀ c ∈ title.toList, c ≠ '"' ∧ c ≠ '\\' ∧ 0x20 ≤ c.toNat

theorem Document.PlainNamed.plainNames {d : Document} (h : d.PlainNamed) : d.PlainNames :=
  ⟨h.elementNames, h.latticeNames⟩

theorem Document.Portable.plainNamed {d : Document} (h : d.Portable) : d.PlainNamed :=
  ⟨h.elementNames, h.latticeNames, h.items⟩

/-! ## Words -/

/-- A dialect has an attribute for each parameter of a kind. -/
def Dialect.Spells (dl : Dialect) (k : Kind) : Prop :=
  ∀ slot ∈ k.slots, slot.parameter ≠ .info → (dl.attribute? slot.parameter).isSome

theorem Dialect.spells_or (dl : Dialect) (k : Kind) :
    dl.Spells k ∨ dl = .elegant ∧ k = .multipole := by
  unfold Spells
  cases dl <;> cases k <;> decide

theorem Dialect.not_spells_multipole : ¬ Dialect.elegant.Spells .multipole := by
  unfold Spells
  decide

namespace Deck

variable {dl : Dialect}

/-- The attribute of a parameter. -/
def attributeName (dl : Dialect) (p : Parameter) : String :=
  (dl.attribute? p).getD ""

theorem attribute?_eq_some {p : Parameter} (hp : (dl.attribute? p).isSome) :
    dl.attribute? p = some (attributeName dl p) := by
  obtain ⟨key, hkey⟩ := Option.isSome_iff_exists.1 hp
  rw [attributeName, hkey, Option.getD_some]

theorem isPlainName_attributeName {p : Parameter} (hp : (dl.attribute? p).isSome) :
    isPlainName (attributeName dl p) := by
  cases dl <;> cases p <;> first | decide | cases hp

theorem isPlainName_keyword (dl : Dialect) (k : Kind) : isPlainName (dl.keyword k) := by
  cases dl <;> cases k <;> decide

theorem isSome_attribute?_of_mem_fields {b : Body} (h : dl.Spells b.kind)
    {f : Parameter × Quantity} (hf : f ∈ b.fields) : (dl.attribute? f.1).isSome := by
  obtain ⟨hinfo, slot, hslot, hparameter⟩ := b.slot_of_mem_settings _ (Body.mem_fields_iff.1 hf)
  have hsome := h slot hslot (hparameter ▸ hinfo)
  rwa [hparameter] at hsome

end Deck

/-! ## Elements -/

/-- The dialect can write the element. elegant writes multipoles of one order alone. -/
def Element.Writable (dl : Dialect) (e : Element) : Prop :=
  dl = .elegant → e.body.OneOrder

namespace Deck

/-- One attribute for each parameter of a body. -/
def attributeList (dl : Dialect) (b : Body) : List (String × Given) :=
  b.fields.map fun f => (attributeName dl f.1, .value f.2)

/-- The attributes of an element with what they are given. -/
def attributesOf (dl : Dialect) (e : Element) : List (String × Given) :=
  match dl, e.body with
  | .elegant, .multipole knl ksl =>
    match singleOrder? knl ksl with
    | some (n, k) => [("KNL", .value (.number k)), ("ORDER", .order n)]
    | none => []
  | _, b => attributeList dl b

end Deck

/-- How an element is written, and what is kept of it: all its parameters, or one strength. -/
inductive Element.Written (dl : Dialect) (e : Element) : Prop where
  | listed (spells : dl.Spells e.kind) (kept : e.kept dl = e)
      (attributes : attributesOf dl e = attributeList dl e.body)
  | single {knl : List Float} {ksl : Option (List Float)} {n : Nat} {k : Float}
      (dialect : dl = .elegant) (body : e.body = .multipole knl ksl)
      (order : singleOrder? knl ksl = some (n, k))
      (kept : (e.kept dl).body = .multipole (oneOrder n k) none)
      (attributes : attributesOf dl e = [("KNL", .value (.number k)), ("ORDER", .order n)])

variable {dl : Dialect} {e : Element}

theorem Element.Writable.written (h : e.Writable dl) : e.Written dl := by
  obtain ⟨name, info, body⟩ := e
  cases dl with
  | madx => exact .listed ((Dialect.spells_or _ _).resolve_right (by simp)) rfl rfl
  | elegant =>
    cases body with
    | multipole knl ksl =>
      obtain ⟨⟨n, k⟩, horder⟩ := Option.isSome_iff_exists.1 (isSome_singleOrder?.2 (h rfl))
      refine .single rfl rfl horder (Body.kept_multipole horder) ?_
      simp only [attributesOf, horder]
    | _ => exact .listed ((Dialect.spells_or _ _).resolve_right (by rintro ⟨-, ⟨⟩⟩)) rfl rfl

namespace Deck

theorem plain_of_mem_attributesOf (he : e.Lawful) (h : e.Writable dl) :
    ∀ a ∈ attributesOf dl e, isPlainName a.1 ∧ a.2.Finite := by
  intro a ha
  cases h.written with
  | listed hspells _ hattributes =>
    rw [hattributes] at ha
    obtain ⟨f, hf, rfl⟩ := List.mem_map.1 ha
    exact ⟨isPlainName_attributeName (isSome_attribute?_of_mem_fields hspells hf),
      he.finite _ _ hf⟩
  | single _ _ _ hkept hattributes =>
    have hfinite := (he.kept dl).finite .knl (.numbers _) (by
      rw [hkept]
      exact List.mem_cons_self)
    have hknl : isPlainName "KNL" := by decide
    have horder : isPlainName "ORDER" := by decide
    rw [hattributes] at ha
    simp only [List.mem_cons, List.not_mem_nil, or_false] at ha
    rcases ha with rfl | rfl
    · exact ⟨hknl, hfinite _ (List.mem_append_right _ List.mem_cons_self)⟩
    · exact ⟨horder, trivial⟩

theorem assignments_eq (h : dl.Spells e.kind) : assignments dl e =
    .ok ((attributeList dl e.body).map fun a => a.2.assignment a.1) := by
  unfold assignments
  rw [mapM_eq_ok, attributeList, List.map_map, List.forall₂_map_right_iff, List.forall₂_same]
  rintro ⟨p, q⟩ hf
  have hattribute := attribute?_eq_some (isSome_attribute?_of_mem_fields h hf)
  dsimp only at hattribute ⊢
  rw [hattribute]
  rfl

theorem attributes_eq (h : e.Writable dl) : attributes dl e =
    .ok ((attributesOf dl e).map fun a => a.2.assignment a.1) := by
  cases h.written with
  | listed hspells hkept hattributes =>
    rw [hattributes, ← assignments_eq hspells]
    unfold attributes
    split
    · rename_i knl ksl hbody
      have hkind : e.kind = .multipole := congrArg Body.kind hbody
      exact absurd (hkind ▸ hspells) Dialect.not_spells_multipole
    · rfl
  | single hdialect hbody horder _ hattributes =>
    subst hdialect
    rw [hattributes]
    unfold attributes
    simp only [hbody, horder]
    rfl

theorem writable_of_attributes {texts : List String} (h : attributes dl e = .ok texts) :
    e.Writable dl := by
  rintro rfl
  obtain ⟨name, info, body⟩ := e
  cases body with
  | multipole knl ksl =>
    rw [← isSome_singleOrder?]
    cases horder : singleOrder? knl ksl with
    | some k => rfl
    | none =>
      simp only [attributes, horder] at h
      cases h
  | _ => trivial

/-- The definition of an element, without its end. -/
def elementStatement (dl : Dialect) (e : Element) : String :=
  elementText e.name (dl.keyword e.kind) (attributesOf dl e)

theorem elementLine_eq (h : e.Writable dl) :
    elementLine dl e = .ok (elementStatement dl e ++ dl.terminator) := by
  unfold elementLine
  rw [attributes_eq h]
  rfl

theorem writable_of_elementLine {line : String} (h : elementLine dl e = .ok line) :
    e.Writable dl := by
  obtain ⟨texts, htexts, -⟩ := bind_eq_ok.1 h
  exact writable_of_attributes htexts

/-! ## Documents -/

/-- The definition of a line, without its end. -/
def latticeStatement (l : Lattice) : String :=
  lineText l.name l.references

/-- The command that sets the title. -/
def titleText (title : List Char) : List Char :=
  "TITLE".toList ++ ',' :: ' ' :: '"' :: (title ++ ['"'])

/-- The command that chooses the root. -/
def useText (root : String) : List Char :=
  "USE".toList ++ ',' :: ' ' :: root.toList

/-- The statements of the deck of a document behind its title, without their ends. -/
def statements (dl : Dialect) (d : Document) (root : String) : List (List Char) :=
  d.elements.map (fun e => (elementStatement dl e).toList) ++
    d.inDependencyOrder.map (fun l => (latticeStatement l).toList) ++ [useText root]

theorem flatMap_escaped {cs : List Char}
    (h : ∀ c ∈ cs, c ≠ '"' ∧ c ≠ '\\' ∧ 0x20 ≤ c.toNat) : cs.flatMap Json.escaped = cs := by
  induction cs with
  | nil => rfl
  | cons c cs ih =>
    rw [List.forall_mem_cons] at h
    obtain ⟨⟨hquote, hslash, hcontrol⟩, hcs⟩ := h
    have hne : ∀ d : Char, d.toNat < 0x20 → c ≠ d := by
      rintro d hd rfl
      omega
    have hc : Json.escaped c = [c] := by
      unfold Json.escaped
      rw [if_neg hquote, if_neg hslash, if_neg (hne _ (by decide)), if_neg (hne _ (by decide)),
        if_neg (hne _ (by decide)), if_neg (hne _ (by decide)), if_neg (hne _ (by decide)),
        if_neg (by omega)]
    rw [List.flatMap_cons, hc, ih hcs]
    rfl

theorem toList_titleLine_madx (title : String) : (titleLine .madx title).toList =
    titleText (title.toList.flatMap Json.escaped) ++ [';'] := by
  simp only [titleLine, Json.quote, String.toList_append, String.toList_ofList, titleText]
  rfl

theorem toList_titleLine {title : String}
    (h : ∀ c ∈ title.toList, c ≠ '"' ∧ c ≠ '\\' ∧ 0x20 ≤ c.toNat) :
    (titleLine .madx title).toList = titleText title.toList ++ [';'] := by
  rw [toList_titleLine_madx, flatMap_escaped h]

end Deck

open Deck

variable {d : Document} {root : String}

/-- The title that a deck shows needs no escapes. -/
theorem Document.Portable.shown (h : d.Portable) (hlawful : d.Lawful) (hroot : d.root = some root) :
    ∀ c ∈ (d.title.getD root).toList, c ≠ '"' ∧ c ≠ '\\' ∧ 0x20 ≤ c.toNat := by
  cases htitle : d.title with
  | some title => exact h.title title htitle
  | none =>
    intro c hc
    obtain ⟨l, hl, rfl⟩ := hlawful.root root hroot
    have hplain := isPlainRest_of_mem (h.latticeNames l hl) c hc
    exact ⟨ne_of_test hplain (by decide), ne_of_test hplain (by decide),
      Nat.le_trans (by decide) (toNat_of_isPlainRest hplain).1⟩

theorem toList_lines (lines : List String) :
    (lines.foldr (fun l rest => l ++ "\n" ++ rest) "").toList =
      lines.flatMap fun l => l.toList ++ ['\n'] := by
  induction lines with
  | nil => rfl
  | cons l lines ih =>
    rw [List.foldr_cons, String.toList_append, String.toList_append, ih]
    rfl

theorem Document.Lawful.beamline?_eq_some (hlawful : d.Lawful) (hroot : d.root = some root) :
    ∃ l, d.beamline? = some l ∧ l.name = root := by
  obtain ⟨l, hl, rfl⟩ := hlawful.root root hroot
  refine ⟨l, ?_, rfl⟩
  rw [Document.beamline?, hroot, Option.bind_some, hlawful.lattice?_of_mem hl]

/-- The writer writes the title and the statements, each on a line of its own. -/
theorem Document.exists_writeDeck (h : ∀ e ∈ d.elements, e.Writable dl) (hlawful : d.Lawful)
    (hroot : d.root = some root) : ∃ text, d.writeDeck dl = .ok text ∧
      text.toList = (titleLine dl (d.title.getD root)).toList ++ '\n' ::
        (statements dl d root).flatMap fun s => s ++ (dl.terminator.toList ++ ['\n']) := by
  obtain ⟨l, hbeamline, rfl⟩ := hlawful.beamline?_eq_some hroot
  have helements : d.elements.mapM (elementLine dl) =
      .ok (d.elements.map fun e => elementStatement dl e ++ dl.terminator) := by
    rw [mapM_eq_ok, List.forall₂_map_right_iff, List.forall₂_same]
    exact fun e he => elementLine_eq (h e he)
  have hlines : deckLines dl d = .ok (titleLine dl (d.title.getD l.name) ::
      d.elements.map (fun e => elementStatement dl e ++ dl.terminator) ++
        d.inDependencyOrder.map (latticeLine dl) ++ [useLine dl l.name]) := by
    unfold deckLines
    rw [hbeamline, helements]
    rfl
  refine ⟨_, by rw [Document.writeDeck, hlines], ?_⟩
  rw [toList_lines, statements]
  simp only [List.flatMap_append, List.flatMap_cons, List.flatMap_map, String.toList_append,
    latticeLine, latticeStatement, lineText, useLine, useText, List.flatMap_nil, List.append_assoc,
    List.cons_append]
  rfl

/-- The writer cannot write a document with an element that it cannot write. -/
theorem Document.writable_of_writeDeck {text : String} (h : d.writeDeck dl = .ok text) :
    ∀ e ∈ d.elements, e.Writable dl := by
  unfold Document.writeDeck at h
  split at h
  · rename_i lines hlines
    obtain ⟨elements, hmapM⟩ : ∃ elements, d.elements.mapM (elementLine dl) = .ok elements := by
      unfold deckLines at hlines
      cases hbeamline : d.beamline? with
      | none =>
        rw [hbeamline] at hlines
        cases hlines
      | some l =>
        rw [hbeamline] at hlines
        obtain ⟨root, -, hlines⟩ := bind_eq_ok.1 hlines
        obtain ⟨elements, helements, -⟩ := bind_eq_ok.1 hlines
        exact ⟨elements, helements⟩
    have hall := (mapM_eq_ok.1 hmapM).imp fun e line hline => writable_of_elementLine hline
    exact forall_of_forall₂ (List.Forall₂.flip hall)
  · cases h

/-- The writer writes the statements of a MAD-X deck, each on a line of its own. -/
theorem Document.writeDeck_eq (h : d.Portable) (hlawful : d.Lawful) (hroot : d.root = some root) :
    ∃ text, d.writeDeck .madx = .ok text ∧
      text.toList = (titleText (d.title.getD root).toList :: statements .madx d root).flatMap
        fun s => s ++ [';', '\n'] := by
  have hwritable : ∀ e ∈ d.elements, e.Writable .madx := fun _ _ => nofun
  obtain ⟨text, hwrite, htext⟩ := exists_writeDeck hwritable hlawful hroot
  refine ⟨text, hwrite, ?_⟩
  rw [htext, toList_titleLine (h.shown hlawful hroot), List.flatMap_cons, List.append_assoc,
    List.append_assoc]
  rfl

/-! ## How the statements are cut -/

namespace Deck

theorem isCode_of_isPlainRest {c : Char} (h : isPlainRest c) : isCode c := by
  rw [isCode_iff]
  refine ⟨?_, ?_, ?_, ?_, ?_, ?_⟩
  all_goals exact ne_of_test h (by decide)

theorem not_isOpening_of_isPlainRest {c : Char} (h : isPlainRest c) : isOpening c = false := by
  have hround : c ≠ '(' := ne_of_test h (by decide)
  have hcurly : c ≠ '{' := ne_of_test h (by decide)
  simp [isOpening, hround, hcurly]

theorem mem_plain {x : Float} (hx : x.isFinite) {c : Char} (hc : c ∈ (plain x).toList) :
    c.isDigit ∨ c = '.' ∨ c = '-' := by
  obtain ⟨negative, n, hw⟩ := Decimal.exists_written (s := .plain) (.inl rfl) hx
  have htext : ∀ c ∈ n.text, c.isDigit ∨ c = '.' ∨ c = '-' := by
    intro c hc
    rw [Decimal.Numeral.text, hw.positional fun _ => rfl, Option.map_none, Option.getD_none,
      List.append_nil, List.mem_append] at hc
    rcases hc with hc | hc
    · exact .inl (hw.good.whole_digits c hc)
    · split at hc
      · cases hc
      · rcases List.mem_cons.1 hc with rfl | hc
        · exact .inr (.inl rfl)
        · exact .inl (hw.good.fraction_digits c hc)
  rw [plain, String.toList_ofList, hw.text] at hc
  cases negative with
  | false => exact htext c hc
  | true =>
    rcases List.mem_cons.1 hc with rfl | hc
    · exact .inr (.inr rfl)
    · exact htext c hc

/-- A text that is copied and ends in no blank and no `&`, with at most `n` opening brackets. -/
structure Piece (n : Nat) (text : List Char) : Prop where
  ne_nil : text ≠ []
  code : ∀ c ∈ text, isCode c
  last : ∀ c ∈ text.getLast?, isBlank c = false ∧ c ≠ '&'
  brackets : text.countP isOpening ≤ n

namespace Piece

variable {n m : Nat} {xs ys : List Char}

theorem behind (h : Piece n ys) (xs : List Char) (m : Nat) (hcode : ∀ c ∈ xs, isCode c)
    (hbrackets : xs.countP isOpening ≤ m) : Piece (m + n) (xs ++ ys) := by
  refine ⟨by simp [h.ne_nil], fun c hc => ?_, ?_, ?_⟩
  · rcases List.mem_append.1 hc with hc | hc
    · exact hcode c hc
    · exact h.code c hc
  · rw [List.getLast?_append_of_ne_nil _ h.ne_nil]
    exact h.last
  · rw [List.countP_append]
    have := h.brackets
    omega

theorem append (hxs : Piece m xs) (h : Piece n ys) : Piece (m + n) (xs ++ ys) :=
  h.behind xs m hxs.code hxs.brackets

theorem mono (h : Piece n xs) (hle : n ≤ m) : Piece m xs :=
  ⟨h.ne_nil, h.code, h.last, Nat.le_trans h.brackets hle⟩

theorem of_forall (hne : xs ≠ [])
    (h : ∀ c ∈ xs, isCode c ∧ (isBlank c = false ∧ c ≠ '&') ∧ isOpening c = false) :
    Piece 0 xs := by
  refine ⟨hne, fun c hc => (h c hc).1, fun c hc => (h c (List.mem_of_getLast? hc)).2.1, ?_⟩
  rw [Nat.le_zero, List.countP_eq_zero]
  exact fun c hc => by simp [(h c hc).2.2]

/-- The characters of names and numbers stand in pieces. -/
theorem of_numeric (hne : xs ≠ []) (h : ∀ c ∈ xs, isPlainRest c ∨ c = '-') : Piece 0 xs := by
  refine of_forall hne fun c hc => ?_
  rcases h c hc with hplain | rfl
  · exact ⟨isCode_of_isPlainRest hplain, ⟨not_isBlank_of_isPlainRest hplain,
      ne_of_test hplain (by decide)⟩, not_isOpening_of_isPlainRest hplain⟩
  · decide

theorem name {s : String} (hs : isPlainName s) : Piece 0 s.toList := by
  obtain ⟨c, cs, h, -⟩ := isPlainName_iff.1 hs
  exact of_numeric (by simp [h]) fun c hc => .inl (isPlainRest_of_mem hs c hc)

theorem plain {x : Float} (hx : x.isFinite) : Piece 0 (plain x).toList := by
  obtain ⟨c, cs, h, -⟩ := Grammar.numberHead_plain hx
  refine of_numeric (by simp [h]) fun c hc => ?_
  rcases mem_plain hx hc with hdigit | rfl | rfl
  · exact .inl (by simp [isPlainRest, hdigit])
  · exact .inl (by decide)
  · exact .inr rfl

theorem order (n : Nat) : Piece 0 (Given.order n).text := by
  obtain ⟨c, cs, h, -⟩ := Grammar.numberHead_order n
  refine of_numeric (by simp [h]) fun c hc => .inl ?_
  rw [Grammar.text_order, Decimal.Numeral.text] at hc
  have hdigit := Decimal.isDigit_of_mem_digitsOfNat (n := n) (by simpa using hc)
  simp [isPlainRest, hdigit]

/-- Pieces behind commas are a piece together with what they stand behind. -/
theorem append_behindCommas {α : Type} {text : α → List Char} {as : List α}
    (h : ∀ a ∈ as, Piece n (text a)) (hxs : Piece m xs) :
    Piece (m + n * as.length) (xs ++ behindCommas text as) := by
  unfold behindCommas
  induction as generalizing m xs with
  | nil =>
    rw [List.flatMap_nil, List.append_nil]
    exact hxs
  | cons a as ih =>
    rw [List.forall_mem_cons] at h
    have hcomma : Piece n (',' :: ' ' :: text a) := by
      have := h.1.behind [',', ' '] 0 (by simp [isCode]) (by decide)
      rwa [Nat.zero_add] at this
    have hrest := ih h.2 (hxs.append hcomma)
    rw [List.flatMap_cons, ← List.append_assoc, List.length_cons, Nat.mul_succ,
      Nat.add_comm (n * as.length), ← Nat.add_assoc]
    exact hrest

theorem quantity {q : Quantity} (hq : q.Finite) : Piece 1 (quantityText q) := by
  cases q with
  | number x => exact (Piece.plain hq).mono (Nat.zero_le 1)
  | numbers xs =>
    have hclose : Piece 0 ['}'] := of_forall (by simp) (by simp [isCode, isBlank, isOpening])
    have hopen : ∀ c ∈ ['{'], isCode c := by simp [isCode]
    have htext : quantityText (.numbers xs) =
        ['{'] ++ ((", ".intercalate (xs.map Deck.plain)).toList ++ ['}']) := by
      simp [quantityText, braced, String.toList_append]
    rw [htext]
    cases xs with
    | nil => exact hclose.behind ['{'] 1 hopen (by decide)
    | cons x xs =>
      rw [List.map_cons, toList_intercalate_cons, behindCommas_map]
      have hxs := List.forall_mem_cons.1 hq
      have hitems := append_behindCommas (fun y hy => Piece.plain (hxs.2 y hy)) (Piece.plain hxs.1)
      exact ((hitems.append hclose).behind ['{'] 1 hopen (by decide)).mono (by simp)

theorem given {g : Given} (hg : g.Finite) : Piece 1 g.text := by
  cases g with
  | value q => exact quantity hg
  | order n => exact (order n).mono (Nat.zero_le 1)

theorem assignment {key : String} (hkey : isPlainName key) {g : Given} (hg : g.Finite) :
    Piece 1 (g.assignment key).toList := by
  rw [Grammar.toList_assignment]
  have hvalue := (given hg).behind ['='] 0 (by simp [isCode]) (by decide)
  exact ((name hkey).append hvalue).mono (by simp)

/-- A piece behind a plain name is coded. -/
theorem coded {s : String} (hs : isPlainName s) (h : Piece n xs) (hn : n ≤ maxBracketDepth) :
    Coded (s.toList ++ xs) := by
  have happend := (name hs).append h
  refine ⟨happend.ne_nil, happend.code, ?_, happend.last, ?_⟩
  · obtain ⟨c, cs, heq, hc, -⟩ := isPlainName_iff.1 hs
    have hplain := isPlainRest_of_isPlainStart hc
    rw [heq]
    rintro _ ⟨⟩
    exact ⟨not_isBlank_of_isPlainRest hplain, ne_of_test hplain (by decide)⟩
  · have hdepth := bracketDepth_le (s.toList ++ xs)
    have hbrackets := happend.brackets
    omega

end Piece

theorem length_attributesOf (h : e.Writable dl) : (attributesOf dl e).length ≤ 5 := by
  have hfields : e.body.fields.length ≤ e.body.settings.length := List.length_filterMap_le _ _
  have hsettings : e.body.settings.length ≤ 5 := by
    cases e.body <;> simp [Body.settings]
  cases h.written with
  | listed _ _ hattributes =>
    rw [hattributes, attributeList, List.length_map]
    omega
  | single _ _ _ _ hattributes =>
    rw [hattributes]
    simp

theorem coded_elementStatement (he : e.Lawful) (h : e.Writable dl) (hname : isPlainName e.name) :
    Coded (elementStatement dl e).toList := by
  have hattributes : ∀ a ∈ attributesOf dl e, Piece 1 (a.2.assignment a.1).toList := by
    intro a ha
    obtain ⟨hkey, hg⟩ := plain_of_mem_attributesOf he h a ha
    exact .assignment hkey hg
  have hpiece := Piece.append_behindCommas hattributes (.name (isPlainName_keyword dl e.kind))
  have hcolon := hpiece.behind [':', ' '] 0 (by simp [isCode]) (by decide)
  have hlength := length_attributesOf h
  rw [elementStatement, toList_elementText]
  exact hcolon.coded hname (by unfold maxBracketDepth; omega)

theorem coded_latticeStatement {l : Lattice} (hname : isPlainName l.name)
    (hnames : ∀ s ∈ l.references, isPlainName s) : Coded (latticeStatement l).toList := by
  have hbody : Piece 1 (", ".intercalate l.references ++ ")").toList := by
    have hclose : Piece 0 [')'] := .of_forall (by simp) (by simp [isCode, isBlank, isOpening])
    rw [String.toList_append]
    cases hreferences : l.references with
    | nil => exact hclose.mono (Nat.zero_le 1)
    | cons first names =>
      rw [hreferences, List.forall_mem_cons] at hnames
      rw [toList_intercalate_cons]
      have hitems := Piece.append_behindCommas (fun s hs => Piece.name (hnames.2 s hs))
        (.name hnames.1)
      exact (hitems.append hclose).mono (by simp)
  have hopen := hbody.behind ['=', '('] 1 (by simp [isCode]) (by decide)
  have hline := (Piece.name (s := "LINE") (by decide)).append hopen
  have hcolon := hline.behind [':', ' '] 0 (by simp [isCode]) (by decide)
  have htext : (latticeStatement l).toList = l.name.toList ++ ([':', ' '] ++ ("LINE".toList ++
      (['=', '('] ++ (", ".intercalate l.references ++ ")").toList))) := by
    simp [latticeStatement, lineText, String.toList_append]
  rw [htext]
  exact hcolon.coded hname (by simp [maxBracketDepth])

theorem coded_useText {root : String} (hroot : isPlainName root) : Coded (useText root) :=
  ((Piece.name hroot).behind [',', ' '] 0 (by simp [isCode])
    (by decide)).coded (s := "USE") (by decide) (by simp [maxBracketDepth])

end Deck

open Deck

variable {d : Document} {root : String}

theorem Document.PlainNames.references (h : d.PlainNames) (hlawful : d.Lawful) {l : Lattice}
    (hl : l ∈ d.lattices) : ∀ s ∈ l.references, isPlainName s := by
  intro s hs
  rcases hlawful.defined l hl s hs with ⟨e, he, rfl⟩ | ⟨l', hl', rfl⟩
  · exact h.elements e he
  · exact h.lattices l' hl'

theorem Document.PlainNamed.references (h : d.PlainNamed) (hlawful : d.Lawful) {l : Lattice}
    (hl : l ∈ d.lattices) : l.references ≠ [] ∧ ∀ s ∈ l.references, isPlainName s :=
  ⟨Item.namesOf_ne_nil (h.items l hl) (hlawful.groups l hl), h.plainNames.references hlawful hl⟩

/-- The statements of a deck come back from it as they are. -/
theorem Document.coded_of_mem_statements (h : d.PlainNames) (hlawful : d.Lawful)
    (hroot : d.root = some root) (hwritable : ∀ e ∈ d.elements, e.Writable dl) :
    ∀ s ∈ statements dl d root, Coded s := by
  obtain ⟨l, hl, rfl⟩ := hlawful.root root hroot
  intro s hs
  simp only [statements, List.mem_append, List.mem_map, List.mem_singleton] at hs
  rcases hs with (⟨e, he, rfl⟩ | ⟨l', hl', rfl⟩) | rfl
  · exact coded_elementStatement (hlawful.elements e he) (hwritable e he) (h.elements e he)
  · have hmem := hlawful.inDependencyOrder_perm.mem_iff.1 hl'
    exact coded_latticeStatement (h.lattices l' hmem) (h.references hlawful hmem)
  · exact coded_useText (h.lattices l hl)

end Beamline

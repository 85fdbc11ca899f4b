import Beamline.Proofs.Deck.ElegantRoundTrip

/-!
# Titles

A title may be any text, but MAD-X writes it with escapes that it does not read, and elegant writes
it into a comment that ends with the line.

* `Deck.flatMap_escaped_eq_self_iff` : the titles that MAD-X writes as they are;
* `Document.titled` : a document under another title; nothing but the title differs in its deck;
* `Document.readDeck_titled` : what is read from the decks of a document with any title.
-/

namespace Beamline

open Deck Text

/-! ## Escapes -/

namespace Deck

/-- What has to be escaped takes more than one character. -/
theorem verbatim_of_length_escaped {c : Char} (h : (Json.escaped c).length = 1) :
    c ≠ '"' ∧ c ≠ '\\' ∧ 0x20 ≤ c.toNat := by
  unfold Json.escaped at h
  by_cases hquote : c = '"'
  · rw [if_pos hquote] at h
    cases h
  by_cases hslash : c = '\\'
  · rw [if_neg hquote, if_pos hslash] at h
    cases h
  refine ⟨hquote, hslash, Nat.le_of_not_lt fun hcontrol => ?_⟩
  rw [if_neg hquote, if_neg hslash, if_pos hcontrol] at h
  repeat' split at h
  all_goals cases h

/-- A text is written as it is if and only if nothing in it has to be escaped. -/
theorem flatMap_escaped_eq_self_iff {cs : List Char} : cs.flatMap Json.escaped = cs ↔
    ∀ c ∈ cs, c ≠ '"' ∧ c ≠ '\\' ∧ 0x20 ≤ c.toNat := by
  refine ⟨fun h => ?_, flatMap_escaped⟩
  have hlength := congrArg List.length h
  clear h
  induction cs with
  | nil => simp
  | cons c cs ih =>
    have hc := Json.one_le_length_escaped c
    have hcs := Json.length_le_flatMap_escaped cs
    rw [List.flatMap_cons, List.length_append, List.length_cons] at hlength
    rw [List.forall_mem_cons]
    exact ⟨verbatim_of_length_escaped (by omega), ih (by omega)⟩

/-- Escapes bring in no quotation marks. -/
theorem quote_notMem_escaped {c : Char} (hc : c ≠ '"') : '"' ∉ Json.escaped c := by
  rw [Json.escaped, if_neg hc]
  split_ifs with _ _ _ _ _ _ hcontrol
  any_goals decide
  · have hhigh := Json.hexDigit_ne (c := '"') rfl (n := c.toNat / 16) (by omega)
    have hlow := Json.hexDigit_ne (c := '"') rfl (n := c.toNat % 16) (by omega)
    simp [hhigh.symm, hlow.symm]
  · simpa using hc.symm

theorem quote_notMem_flatMap_escaped {cs : List Char} (h : '"' ∉ cs) :
    '"' ∉ cs.flatMap Json.escaped := by
  rw [List.mem_flatMap]
  rintro ⟨c, hc, hmem⟩
  exact quote_notMem_escaped (fun heq => h (heq ▸ hc)) hmem

end Deck

namespace Document

variable {d : Document} {root t : String} {dl : Dialect}

/-! ## A document under another title -/

/-- The document under another title. -/
def titled (d : Document) (title : String) : Document :=
  { d with title := some title }

@[simp] theorem title_titled (d : Document) (t : String) : (d.titled t).title = some t := rfl

@[simp] theorem root_titled (d : Document) (t : String) : (d.titled t).root = d.root := rfl

@[simp] theorem elements_titled (d : Document) (t : String) :
    (d.titled t).elements = d.elements := rfl

@[simp] theorem lattices_titled (d : Document) (t : String) :
    (d.titled t).lattices = d.lattices := rfl

theorem titled_self (h : d.title = some t) : d.titled t = d := by
  rw [titled, ← h]

theorem Lawful.titled (h : d.Lawful) (t : String) : (d.titled t).Lawful :=
  { h with }

theorem PlainNamed.titled (h : d.PlainNamed) (t : String) : (d.titled t).PlainNamed :=
  { h with }

theorem inDependencyOrder_titled (d : Document) (t : String) :
    (d.titled t).inDependencyOrder = d.inDependencyOrder :=
  inDependencyOrder_congr rfl

/-- The title of a document is in none of its statements. -/
theorem statements_titled (dl : Dialect) (d : Document) (root t : String) :
    statements dl (d.titled t) root = statements dl d root := by
  rw [statements, inDependencyOrder_titled]
  rfl

/-- What is kept of a document does not depend on its title. -/
theorem inDeck_titled (dl : Dialect) (d : Document) (root t : String) :
    ((d.titled t).kept dl).inDeck root = ((d.kept dl).inDeck root).titled t := by
  show ((d.kept dl).titled t).inDeck root = _
  rw [inDeck, inDependencyOrder_titled]
  rfl

/-! ## Reading -/

/-- A title that a deck keeps apart from its statements. -/
def Confined (dl : Dialect) (t : String) : Prop :=
  match dl with
  | .madx => '"' ∉ t.toList
  | .elegant => ∀ l ∈ (titleLines t.toList).tail, Codeless l

theorem confined_of_inline (hquote : '"' ∉ t.toList) (hline : '\n' ∉ t.toList) :
    Confined dl t := by
  cases dl with
  | madx => exact hquote
  | elegant =>
    rw [Confined, titleLines_eq_singleton hline]
    exact fun l hl => absurd hl List.not_mem_nil

/-- What is read of such a title: all of it with its escapes, or its first line. -/
def readTitle (dl : Dialect) (t : String) : String :=
  match dl with
  | .madx => String.ofList (t.toList.flatMap Json.escaped)
  | .elegant => String.ofList (trim ((titleLines t.toList).headD []))

/-- A deck with a confined title is cut into the title and the statements. -/
theorem exists_behind_title (h : d.PlainNames) (hlawful : d.Lawful) (hroot : d.root = some root)
    (hwritable : ∀ e ∈ d.elements, e.Writable dl) (ht : Confined dl t) {text : String}
    (hwrite : (d.titled t).writeDeck dl = .ok text) :
    ∃ behind, Session.clauses dl { title := (Deck.cut dl text.toList).title }
        (Deck.cut dl text.toList).clauses =
      Session.clauses dl { title := some (readTitle dl t) } behind ∧
      behind.map (·.text) = statements dl d root := by
  obtain ⟨text', hwrite', htext⟩ := exists_writeDeck (d := d.titled t) hwritable (hlawful.titled t)
    hroot
  obtain rfl : text' = text := Except.ok.inj (hwrite'.symm.trans hwrite)
  rw [statements_titled] at htext
  cases dl with
  | madx =>
    refine exists_behind_titleText h hlawful hroot (quote_notMem_flatMap_escaped ht) ?_
    rw [htext, List.flatMap_cons]
    show (titleLine .madx t).toList ++ _ = _
    rw [toList_titleLine_madx, List.append_assoc, List.append_assoc]
    rfl
  | elegant =>
    have hne : t.toList ++ ['\n'] ≠ [] := by simp
    obtain ⟨first, more, hlines⟩ := List.exists_cons_of_ne_nil (lines_ne_nil hne)
    have hmore : ∀ l ∈ more, Codeless l := by
      have hcodeless : ∀ l ∈ (titleLines t.toList).tail, Codeless l := ht
      rwa [titleLines, hlines] at hcodeless
    obtain ⟨clauses, hcut, hmap⟩ := exists_cutElegant_of_codeless hlines hmore
      (coded_of_mem_statements h hlawful hroot hwritable)
    have hcut : Deck.cut .elegant text'.toList = ⟨clauses, some (readTitle .elegant t)⟩ := by
      rw [htext, readTitle, titleLines, hlines, List.headD_cons, ← hcut]
      show (Deck.cut .elegant ((titleLine .elegant t).toList ++ _)) = _
      simp only [titleLine, String.toList_append]
      rfl
    refine ⟨clauses, ?_, hmap⟩
    rw [hcut]

/-- From a deck with a confined title is read what a deck keeps of the document. -/
theorem readDeck_titled (h : d.PlainNamed) (hlawful : d.Lawful) (hroot : d.root = some root)
    (hexpressible : ∀ e ∈ d.elements, e.Expressible dl) (ht : Confined dl t) {text : String}
    (hwrite : (d.titled t).writeDeck dl = .ok text) : readDeck dl text =
      (.ok (((d.kept dl).inDeck root).titled (readTitle dl t)), []) := by
  obtain ⟨behind, htitle, hbehind⟩ := exists_behind_title h.plainNames hlawful hroot
    (fun e he => (hexpressible e he).writable) ht hwrite
  have hread := readDeck_of_cut (h.titled (readTitle dl t)) (hlawful.titled (readTitle dl t)) hroot
    hexpressible rfl htitle (by rw [hbehind, statements_titled])
  rw [hread, inDeck_titled]

/-- What comes back of the title of a validated document with a root, plain names and no empty
lattice. From a MAD-X deck a title without quotation marks is read with the escapes that it was
written with, so it is the same if and only if it needs none. From an elegant deck the same
elements, lattices and root are read under any title whose lines behind the first have no code. -/
theorem readDeck_writeDeck_titled (h : d.Validated) (hroot : d.root = some root)
    (hplain : d.PlainNamed) (htitle : d.title = some t) :
    (∀ text, d.writeDeck .madx = .ok text → '"' ∉ t.toList →
      ∃ d', readDeck .madx text = (.ok d', []) ∧
        d'.title = some (String.ofList (t.toList.flatMap Json.escaped)) ∧
        (d'.title = some t ↔ ∀ c ∈ t.toList, c ≠ '\\' ∧ 0x20 ≤ c.toNat)) ∧
    ∀ text, d.writeDeck .elegant = .ok text →
      (∀ e ∈ d.elements, ∀ knl ksl, e.body = .multipole knl ksl → knl.length ≤ 2 ^ 53) →
      (∀ l ∈ (titleLines t.toList).tail, Codeless l) →
      ∃ plain d' d₀, (d.titled "X").writeDeck .elegant = .ok plain ∧
        readDeck .elegant text = (.ok d', []) ∧ readDeck .elegant plain = (.ok d₀, []) ∧
        d'.elements = d₀.elements ∧ d'.lattices = d₀.lattices ∧ d'.root = d₀.root := by
  have hlawful := lawful_of_validated h
  have hself := titled_self htitle
  refine ⟨fun text hwrite hquote => ?_, fun text hwrite horders hcodeless => ?_⟩
  · have hexpressible : ∀ e ∈ d.elements, e.Expressible .madx := fun _ _ => ⟨nofun, nofun⟩
    rw [← hself] at hwrite
    refine ⟨_, readDeck_titled hplain hlawful hroot hexpressible hquote hwrite, rfl, ?_⟩
    show some (String.ofList (t.toList.flatMap Json.escaped)) = some t ↔ _
    rw [Option.some_inj, ← String.toList_inj, String.toList_ofList, flatMap_escaped_eq_self_iff]
    refine forall₂_congr fun c hc => and_iff_right ?_
    exact fun heq => hquote (heq ▸ hc)
  · have hwritable : ∀ e ∈ d.elements, e.Writable .elegant := writable_of_writeDeck hwrite
    have hexpressible : ∀ e ∈ d.elements, e.Expressible .elegant := fun e he =>
      ⟨hwritable e he, fun _ => horders e he⟩
    obtain ⟨plain, hplainText, -⟩ := exists_writeDeck (d := d.titled "X") hwritable
      (hlawful.titled "X") hroot
    rw [← hself] at hwrite
    have hread := readDeck_titled hplain hlawful hroot hexpressible hcodeless hwrite
    have hconfined : Confined .elegant "X" := by
      intro l hl
      cases hl
    have hreadPlain := readDeck_titled hplain hlawful hroot hexpressible hconfined hplainText
    exact ⟨plain, _, _, hplainText, hread, hreadPlain, by simp, by simp, by simp⟩

/-! ## Titles that break out -/

/-- Parts that were given once and are accepted make a document. -/
theorem build_of_accepted {b : Builder} (hrepeated : b.repeated = [])
    (h : (validate .standard b.document.toJson).accepted = true) : b.build = .ok b.document := by
  refine Builder.build_eq_ok_iff.2 ⟨hrepeated, ?_, rfl⟩
  rwa [← Validation.passes_findings_iff, ← Validation.accepted_iff]

/-- A document that was built can be built under any title. -/
theorem validated_titled {b : Builder} (hb : b.Reachable) (hbuild : b.build = .ok d) (t : String) :
    (d.titled t).Validated := by
  obtain ⟨hrepeated, -, rfl⟩ := Builder.build_eq_ok_iff.1 hbuild
  have hlawful := lawful_of_validated (.built hb hbuild)
  have htitle : b.title t = ⟨b.document.titled t, []⟩ := by
    rw [← hrepeated]
    rfl
  refine .built (hb.title t) ?_
  rw [htitle]
  exact (hlawful.titled t).build_eq ⟨.inr (.inr hb.extras_eq), nofun, nofun⟩

/-- One element in one lattice. -/
def driftParts : Builder :=
  ((Builder.empty.element ⟨"D", none, .drift 1⟩).lattice ⟨"L", [.name "D"]⟩).root "L"

theorem validated_driftParts (t : String) : (driftParts.document.titled t).Validated := by
  have hreachable : driftParts.Reachable := by
    repeat' constructor
  exact validated_titled hreachable (build_of_accepted rfl (by decide +kernel)) t

theorem plainNamed_driftParts (t : String) : (driftParts.document.titled t).PlainNamed := by
  have hplain : driftParts.document.PlainNamed :=
    ⟨by decide +kernel, by decide +kernel, by decide +kernel⟩
  exact hplain.titled t

theorem writes_driftParts (dl : Dialect) (t : String) :
    ∃ text, (driftParts.document.titled t).writeDeck dl = .ok text := by
  have hlawful := lawful_of_validated (validated_driftParts t)
  have hwritable : ∀ e ∈ (driftParts.document.titled t).elements, e.Writable dl := by
    intro e he
    obtain rfl := List.mem_singleton.1 he
    exact fun _ => trivial
  have hroot : (driftParts.document.titled t).root = some "L" := rfl
  obtain ⟨text, hwrite, -⟩ := exists_writeDeck hwritable hlawful hroot
  exact ⟨text, hwrite⟩

/-- `readDeck_writeDeck_titled` for a title of two lines with a backslash: MAD-X doubles the
backslash, and in the elegant deck the second line is a comment of its own. -/
theorem readDeck_writeDeck_titled_driftParts :
    (∃ text d', (driftParts.document.titled "a\\b\n! c").writeDeck .madx = .ok text ∧
      readDeck .madx text = (.ok d', []) ∧ d'.title = some "a\\\\b\\n! c") ∧
    ∃ text d', (driftParts.document.titled "a\\b\n! c").writeDeck .elegant = .ok text ∧
      readDeck .elegant text = (.ok d', []) := by
  have hroot : (driftParts.document.titled "a\\b\n! c").root = some "L" := rfl
  obtain ⟨hmadx, helegant⟩ := readDeck_writeDeck_titled (validated_driftParts "a\\b\n! c") hroot
    (plainNamed_driftParts _) rfl
  obtain ⟨text, hwrite⟩ := writes_driftParts .madx "a\\b\n! c"
  obtain ⟨text', hwrite'⟩ := writes_driftParts .elegant "a\\b\n! c"
  obtain ⟨d', hread, htitle, -⟩ := hmadx text hwrite (by decide)
  have horders : ∀ e ∈ (driftParts.document.titled "a\\b\n! c").elements, ∀ knl ksl,
      e.body = .multipole knl ksl → knl.length ≤ 2 ^ 53 := by
    intro e he knl ksl hbody
    obtain rfl := List.mem_singleton.1 he
    cases hbody
  have hcodeless : ∀ l ∈ (titleLines "a\\b\n! c".toList).tail, Codeless l := by
    have htail : (titleLines "a\\b\n! c".toList).tail = ["! c".toList] := by decide
    intro l hl
    rw [htail] at hl
    obtain rfl := List.mem_singleton.1 hl
    rfl
  obtain ⟨plain, d'', d₀, -, hread', -⟩ := helegant text' hwrite' horders hcodeless
  exact ⟨⟨text, d', hwrite, hread, htitle⟩, text', d'', hwrite', hread'⟩

/-- A quotation mark ends the title of a MAD-X deck, and a line feed that of an elegant one. -/
theorem not_readDeck_titled :
    (¬ ∀ (d : Document) (root t : String), d.Validated → d.root = some root → d.PlainNamed →
      d.title = some t → ∀ text, d.writeDeck .madx = .ok text →
      ∃ d' notes, readDeck .madx text = (.ok d', notes) ∧ d'.title = some t) ∧
    ¬ ∀ (d : Document) (root t : String), d.Validated → d.root = some root → d.PlainNamed →
      d.title = some t → ∀ text, d.writeDeck .elegant = .ok text →
      ∃ d' notes, readDeck .elegant text = (.ok d', notes) := by
  constructor
  · intro hall
    obtain ⟨text, hwrite⟩ := writes_driftParts .madx "x\"; RETURN;"
    obtain ⟨d', notes, hread, htitle⟩ := hall _ "L" _ (validated_driftParts _) rfl
      (plainNamed_driftParts _) rfl text hwrite
    have hrun : ((driftParts.document.titled "x\"; RETURN;").writeDeck .madx).toOption.bind
        (fun text => (readDeck .madx text).1.toOption.bind (·.title)) = some "x\\" := by
      decide +kernel
    rw [hwrite, Except.toOption, Option.bind_some, hread, Except.toOption, Option.bind_some,
      htitle] at hrun
    exact absurd (Option.some.inj hrun) (by decide)
  · intro hall
    obtain ⟨text, hwrite⟩ := writes_driftParts .elegant "two lines\nof text"
    obtain ⟨d', notes, hread⟩ := hall _ "L" _ (validated_driftParts _) rfl
      (plainNamed_driftParts _) rfl text hwrite
    have hrun : ((driftParts.document.titled "two lines\nof text").writeDeck .elegant).toOption.bind
        (fun text => (readDeck .elegant text).1.toOption.map (·.title)) = none := by
      decide +kernel
    rw [hwrite, Except.toOption, Option.bind_some, hread] at hrun
    cases hrun

end Document

end Beamline

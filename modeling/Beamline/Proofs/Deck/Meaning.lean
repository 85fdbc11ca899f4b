import Beamline.Proofs.Deck.Arrangement
import Beamline.Proofs.Document.Expansion

/-!
# What the lines of a deck mean

* `LineItem.meaning` : what an item means, if it is known what each name means;
* `meanings`, `deckMeaning` : what names mean by definitions of lines, and by those of a deck;
* `Reads` : lines that hold the meanings, and `Reversed.reads` : so do lines with reversed forms;
* `arrange_means` : the names that items are arranged to mean what the items mean;
* `Document.expand_eq_meaning` : each line of a deck is expanded to what its body means.
-/

namespace Beamline.Deck

open Table

/-! ## Meanings -/

/-- A sequence repeated `count` times, turned round first if it is `reversed`. -/
def turned (count : Nat) (reversed : Bool) (names : List String) : List String :=
  (List.replicate count (if reversed then names.reverse else names)).flatten

mutual

/-- The sequence of elements that an item means, if `env` tells what each name means. -/
def LineItem.meaning (env : String → List String) : LineItem → List String
  | .name count reversed s => turned count reversed (env s)
  | .group count reversed items => turned count reversed (LineItem.meaningOf env items)

/-- What items mean one after the other. -/
def LineItem.meaningOf (env : String → List String) : List LineItem → List String
  | [] => []
  | i :: rest => LineItem.meaning env i ++ LineItem.meaningOf env rest

end

/-- What each name means after definitions of lines. A name that is not defined there is that of
an element and means itself. -/
def meanings (definitions : List (String × List LineItem)) : String → List String :=
  definitions.foldl
    (fun env l s => if s = l.1 then LineItem.meaningOf env l.2 else env s) fun s => [s]

/-- What the names of a deck mean. -/
def deckMeaning (d : Dialect) (text : String) : String → List String :=
  meanings (lineDefinitions d text)

/-- In a list of definitions, a name that is defined there is defined before it is used. -/
def Forward (definitions : List (String × List LineItem)) : Prop :=
  ∀ before name items after, definitions = before ++ (name, items) :: after →
    ∀ s ∈ LineItem.namesOf items, s ∈ keys definitions → s ∈ keys before

mutual

theorem meaning_congr {env env' : String → List String} (i : LineItem)
    (h : ∀ s ∈ i.names, env s = env' s) : i.meaning env = i.meaning env' := by
  match i with
  | .name count reversed s =>
    exact congrArg (turned count reversed) (h s (List.mem_singleton_self s))
  | .group count reversed items =>
    exact congrArg (turned count reversed) (meaningOf_congr items h)

theorem meaningOf_congr {env env' : String → List String} (items : List LineItem)
    (h : ∀ s ∈ LineItem.namesOf items, env s = env' s) :
    LineItem.meaningOf env items = LineItem.meaningOf env' items := by
  match items with
  | [] => rfl
  | i :: rest =>
    rw [LineItem.namesOf, List.forall_mem_append] at h
    rw [LineItem.meaningOf, LineItem.meaningOf, meaning_congr i h.1, meaningOf_congr rest h.2]

end

mutual

theorem value_id (val : String → List String) (i : LineItem) : i.value id val = i.meaning val := by
  match i with
  | .name count reversed s =>
    rw [LineItem.value, List.map_id]
    rfl
  | .group count reversed items =>
    rw [LineItem.value, List.map_id, valueOf_id val items]
    rfl

/-- If turning a name leaves it as it is, items come to what they mean. -/
theorem valueOf_id (val : String → List String) (items : List LineItem) :
    LineItem.valueOf id val items = LineItem.meaningOf val items := by
  match items with
  | [] => rfl
  | i :: rest => rw [LineItem.valueOf, value_id val i, valueOf_id val rest, LineItem.meaningOf]

end

theorem meanings_append (before after : List (String × List LineItem)) {s : String}
    (h : s ∉ keys after) : meanings (before ++ after) s = meanings before s := by
  induction after generalizing before with
  | nil => rw [List.append_nil]
  | cons l after ih =>
    rw [keys, List.map_cons, List.mem_cons, not_or] at h
    rw [List.append_cons, ih _ h.2, meanings, List.foldl_append]
    exact if_neg h.1

theorem meanings_of_notMem {definitions : List (String × List LineItem)} {s : String}
    (h : s ∉ keys definitions) : meanings definitions s = [s] :=
  meanings_append [] definitions h

/-- A label that is defined once, by names that are defined before, means what its body means. -/
theorem meanings_eq {definitions : List (String × List LineItem)}
    (hnodup : (keys definitions).Nodup) (hforward : Forward definitions)
    {l : String × List LineItem} (hl : l ∈ definitions) :
    meanings definitions l.1 = LineItem.meaningOf (meanings definitions) l.2 := by
  obtain ⟨before, after, heq⟩ := List.append_of_mem hl
  have hkeys : (keys before ++ l.1 :: keys after).Nodup := by
    rw [heq, keys_append] at hnodup
    exact hnodup
  have hafter : l.1 ∉ keys after := (List.nodup_cons.1 hkeys.of_append_right).1
  have hbody : meanings definitions l.1 = LineItem.meaningOf (meanings before) l.2 := by
    rw [heq, List.append_cons, meanings_append _ _ hafter, meanings, List.foldl_append]
    exact if_pos rfl
  rw [hbody]
  apply meaningOf_congr
  intro s hs
  by_cases hmem : s ∈ keys definitions
  · -- what was defined before is not defined again
    have hbefore := hforward before l.1 l.2 after heq s hs hmem
    rw [heq]
    refine (meanings_append before _ fun hagain => ?_).symm
    exact List.disjoint_of_nodup_append hkeys hbefore hagain
  · have hbefore : s ∉ keys before := fun h => hmem (by
      rw [heq, keys_append]
      exact List.mem_append_left _ h)
    rw [meanings_of_notMem hmem, meanings_of_notMem hbefore]

/-! ## Reversed forms -/

/-- What names mean if each reversed form means what it is the reversed form of, turned round. -/
def mirrored (env : String → List String) (s : String) : List String :=
  if _hsuffix : "_REV".toList <:+ s.toList then
    (mirrored env (String.ofList (s.toList.take (s.length - 4)))).reverse
  else env s
termination_by s.length
decreasing_by
  have hlength : 4 ≤ s.length := _hsuffix.length_le
  rw [String.length_ofList, List.length_take, String.length_toList]
  omega

theorem mirrored_reversedName (env : String → List String) (s : String) :
    mirrored env (reversedName s) = (mirrored env s).reverse := by
  have hlist : (reversedName s).toList = s.toList ++ "_REV".toList := String.toList_append
  have hlength : (reversedName s).length - 4 = s.toList.length := by
    rw [reversedName, String.length_append, String.length_toList]
    exact Nat.add_sub_cancel ..
  rw [mirrored, dif_pos ⟨s.toList, hlist.symm⟩, hlist, hlength, List.take_left,
    String.ofList_toList]

theorem mirrored_of_plain (env : String → List String) {s : String}
    (h : ∀ x, s ≠ reversedName x) : mirrored env s = env s := by
  rw [mirrored, dif_neg]
  rintro ⟨cs, hcs⟩
  apply h (String.ofList cs)
  rw [← String.toList_inj, reversedName, String.toList_append, String.toList_ofList, hcs]

section Reading

variable {val : String → List String} {labels : List String} {lines lines' : Lines}

/-- A name of a line, or of an element. -/
def Known (val : String → List String) (lines : Lines) (s : String) : Prop :=
  s ∈ keys lines ∨ val s = [s]

/-- Lines that mean what their items mean one after the other. -/
structure Reads (val : String → List String) (lines : Lines) : Prop where
  line : ∀ e ∈ lines, val e.1 = e.2.flatMap val
  known : ∀ e ∈ lines, ∀ i ∈ e.2, Known val lines i

theorem Known.mono {s : String} (h : Known val lines s) (hsub : keys lines ⊆ keys lines') :
    Known val lines' s :=
  h.imp_left fun hmem => hsub hmem

/-- Names that mean `es` one after the other, among lines that hold the meanings. -/
structure Means (val : String → List String) (lines : Lines) (names es : List String) : Prop where
  reads : Reads val lines
  known : ∀ s ∈ names, Known val lines s
  meaning : names.flatMap val = es

variable (hval : ∀ s, val (reversedName s) = (val s).reverse)

include hval

theorem val_reversedItem {i : String} (h : Known val lines i) :
    val (reversedItem lines i) = (val i).reverse := by
  by_cases hmem : i ∈ keys lines
  · rw [reversedItem_of_mem hmem, hval]
  · rw [reversedItem_of_notMem hmem, h.resolve_left hmem]
    rfl

/-- The reversed form of a line means what the line means, turned round. -/
theorem flatMap_reversedItem {items : List String} (h : ∀ i ∈ items, Known val lines i) :
    (items.reverse.map (reversedItem lines)).flatMap val = (items.flatMap val).reverse := by
  rw [List.flatMap_map, List.reverse_flatMap]
  apply List.flatMap_congr
  intro i hi
  exact val_reversedItem hval (h i (List.mem_reverse.1 hi))

/-- Lines go on to hold the meanings when reversed forms are made from them. -/
theorem Reversed.reads {name : String} (h : Reversed lines name lines') (hreads : Reads val lines) :
    Reads val lines' := by
  obtain ⟨added, rfl, hadded⟩ := h.added
  have hsub : keys lines ⊆ keys (lines ++ added) := by
    rw [keys_append]
    exact List.subset_append_left _ _
  constructor
  · intro e he
    rcases List.mem_append.1 he with he | he
    · exact hreads.line e he
    · obtain ⟨x, items, hx, rfl, -⟩ := hadded e he
      rw [hval, hreads.line _ hx, flatMap_reversedItem hval (hreads.known _ hx)]
  · intro e he i hi
    rcases List.mem_append.1 he with he | he
    · exact (hreads.known e he i hi).mono hsub
    · obtain ⟨x, items, hx, rfl, -, hitems⟩ := hadded e he
      obtain ⟨j, hj, rfl⟩ := List.mem_map.1 hi
      rw [List.mem_reverse] at hj
      by_cases hmem : j ∈ keys lines
      · rw [reversedItem_of_mem hmem]
        exact .inl (hitems j hj hmem)
      · rw [reversedItem_of_notMem hmem]
        exact (hreads.known _ hx j hj).mono hsub

/-! ## Arranged items -/

theorem reverseOne_means (hground : Grounded labels lines) (hreads : Reads val lines)
    {name name' : String} (hknown : Known val lines name)
    (h : reverseOne lines name = .ok (name', lines')) :
    Means val lines' [name'] (val name).reverse := by
  by_cases hmem : name ∈ keys lines
  · obtain ⟨lines₁, heq, hreversed⟩ := reverseOne_of_mem hground.settled hmem
    rw [heq] at h
    cases h
    exact ⟨hreversed.reads hval hreads, List.forall_mem_singleton.2 (.inl hreversed.asked),
      by rw [List.flatMap_singleton, hval]⟩
  · rw [reverseOne_of_notMem hmem] at h
    cases h
    refine ⟨hreads, List.forall_mem_singleton.2 hknown, ?_⟩
    rw [List.flatMap_singleton, hknown.resolve_left hmem]
    rfl

/-- The reversal of a name keeps grounded lines that hold the meanings. -/
theorem keeps_means (bound : List String) :
    Keeps bound (fun lines => Grounded labels lines ∧ Reads val lines)
      (fun _ lines s => Anchored labels lines s ∧ Known val lines s) id val where
  mono := fun _ _ _ _ hextends _ hs => ⟨hs.1.mono hextends.subset,
    hs.2.mono hextends.subset⟩
  weaken := fun _ _ hs => hs
  reverse := by
    rintro lines lines' s s' ⟨hground, hreads⟩ ⟨hanchored, hknown⟩ heq -
    have hmeans := reverseOne_means hval hground hreads hknown heq
    obtain ⟨s₁, lines₁, heq', harranged⟩ := reverseOne_grounded hground hanchored
    rw [heq'] at heq
    cases heq
    refine ⟨⟨harranged.grounded, hmeans.reads⟩, ⟨harranged.names _ (List.mem_singleton_self _),
      hmeans.known _ (List.mem_singleton_self _)⟩, ?_⟩
    rw [List.map_id, ← hmeans.meaning, List.flatMap_singleton]

/-- The names that items are arranged to mean what the items mean. -/
theorem arrange_means (hground : Grounded labels lines) (hreads : Reads val lines)
    (items : List LineItem) (hitems : ∀ s ∈ LineItem.namesOf items, Anchored labels lines s)
    (hknown : ∀ s ∈ LineItem.namesOf items, Known val lines s) {names : List String}
    (h : arrange lines items = .ok (names, lines')) :
    Means val lines' names (LineItem.meaningOf val items) := by
  have hplaces : ∀ p ∈ LineItem.placesOf false items,
      Anchored labels lines p.2 ∧ Known val lines p.2 := by
    intro p hp
    have hmem : p.2 ∈ LineItem.namesOf items := by
      rw [← names_placesOf false items]
      exact List.mem_map_of_mem hp
    exact ⟨hitems _ hmem, hknown _ hmem⟩
  have hlaid := (keeps_means hval (keys lines')).arrange lines false items ⟨hground, hreads⟩
    hplaces h (List.Subset.refl _)
  exact ⟨hlaid.sound.2, fun s hs => (hlaid.each s hs).2, by rw [hlaid.value, valueOf_id]⟩

omit hval

/-! ## Decks -/

/-- A line whose names mean what it means itself. -/
theorem Means.put {names es : List String} {name : String} (h : Means val lines names es)
    (hname : val name = es) : Reads val (Table.put name names lines) := by
  have hsub : keys lines ⊆ keys (Table.put name names lines) :=
    fun s hs => mem_keys_put.2 (.inl hs)
  constructor
  · intro e he
    rcases mem_of_mem_put he with rfl | he
    · rw [hname, h.meaning]
    · exact h.reads.line e he
  · intro e he i hi
    rcases mem_of_mem_put he with rfl | he
    · exact (h.known i hi).mono hsub
    · exact (h.reads.known e he i hi).mono hsub

end Reading

/-- No label and no name in a body is that of a reversed form. -/
def Plain (definitions : List (String × List LineItem)) : Prop :=
  ∀ l ∈ definitions, ∀ s ∈ l.1 :: LineItem.namesOf l.2, ∀ x, s ≠ reversedName x

/-- The lines of definitions mean what their bodies mean. -/
theorem exists_reads {definitions : List (String × List LineItem)}
    (hnodup : (keys definitions).Nodup) (hforward : Forward definitions)
    (hplain : Plain definitions) : ∃ (val : String → List String) (lines : Lines),
      definitions.foldlM addLine [] = .ok lines ∧ Reads val lines ∧ (keys lines).Nodup ∧
      keys definitions ⊆ keys lines ∧ ∀ l ∈ definitions, val l.1 = meanings definitions l.1 := by
  have hwaits : WaitsForNone definitions :=
    waitsForNone_of_plain fun l hl s hs => hplain l hl s (List.mem_cons_of_mem _ hs)
  have hlabel : ∀ l ∈ definitions, mirrored (meanings definitions) l.1 = meanings definitions l.1 :=
    fun l hl => mirrored_of_plain _ (hplain l hl l.1 List.mem_cons_self)
  have hbody : ∀ l ∈ definitions, ∀ s ∈ LineItem.namesOf l.2,
      mirrored (meanings definitions) s = meanings definitions s :=
    fun l hl s hs => mirrored_of_plain _ (hplain l hl s (List.mem_cons_of_mem _ hs))
  obtain ⟨lines, hlines, hground, hkeys, hreads⟩ := foldlM_addLine hwaits
    (I := Reads (mirrored (meanings definitions))) (by
      intro before l after lines lines' heq hground hsub hreads hadd
      obtain ⟨⟨names, lines₁⟩, harrange, hput⟩ := bind_eq_ok.1 hadd
      cases hput
      have hl : l ∈ definitions := by simp [heq]
      refine (arrange_means (mirrored_reversedName _) hground hreads l.2
        (fun s hs hderived => hsub (hwaits before l.1 l.2 after heq s hs hderived))
        (fun s hs => ?_) harrange).put ?_
      · by_cases hmem : s ∈ keys definitions
        · exact .inl (hsub (hforward before l.1 l.2 after heq s hs hmem))
        · exact .inr (by rw [hbody l hl s hs, meanings_of_notMem hmem])
      · rw [hlabel l hl, meanings_eq hnodup hforward hl]
        exact meaningOf_congr l.2 fun s hs => (hbody l hl s hs).symm)
    definitions [] [] rfl (grounded_nil _) (List.Subset.refl _) ⟨by simp, by simp⟩
  exact ⟨_, lines, hlines, hreads, hground.nodup, hkeys, hlabel⟩

/-- What the items of a line stand for is what they mean. -/
theorem map_name_of_flattens {d : Document} (hlawful : d.Lawful) {val : String → List String}
    {lines : Lines} (hreads : Reads val lines)
    (hlattices : d.lattices = lines.map fun l => ⟨l.1, l.2.map .name⟩) {items : List Item}
    {es : List Element} (h : d.Flattens items es) : ∀ names : List String,
      items = names.map .name → (∀ s ∈ names, Known val lines s) →
      es.map (·.name) = names.flatMap val := by
  induction h with
  | nil =>
    intro names heq _
    rw [List.map_eq_nil_iff.1 heq.symm]
    rfl
  | @element e rest es he _ ih =>
    intro names heq hknown
    obtain ⟨s, names, rfl, hs, hrest⟩ := List.map_eq_cons_iff.1 heq.symm
    cases hs
    rw [List.forall_mem_cons] at hknown
    have hatom : val e.name = [e.name] := by
      refine hknown.1.resolve_left fun hmem => ?_
      obtain ⟨v, hv⟩ := mem_keys.1 hmem
      have hl : (⟨e.name, v.map .name⟩ : Lattice) ∈ d.lattices := by
        rw [hlattices]
        exact List.mem_map.2 ⟨_, hv, rfl⟩
      exact hlawful.distinct e he _ hl rfl
    rw [List.map_cons, ih names hrest.symm hknown.2, List.flatMap_cons, hatom]
    rfl
  | @lattice l rest inner es hl _ _ ihinner ih =>
    intro names heq hknown
    obtain ⟨s, names, rfl, hs, hrest⟩ := List.map_eq_cons_iff.1 heq.symm
    cases hs
    rw [List.forall_mem_cons] at hknown
    rw [hlattices] at hl
    obtain ⟨e, he, rfl⟩ := List.mem_map.1 hl
    rw [List.map_append, ihinner e.2 rfl (hreads.known e he), ← hreads.line e he,
      ih names hrest.symm hknown.2, List.flatMap_cons]
  | group =>
    intro names heq _
    obtain ⟨s, names, rfl, hs, -⟩ := List.map_eq_cons_iff.1 heq.symm
    cases hs

end Beamline.Deck

namespace Beamline.Document

open Deck Table

/-- The lattices of a document that is read from a deck are the lines of the deck. -/
theorem exists_lines_of_readDeck {d : Document} {dialect : Dialect} {text : String}
    {notes : List Note} (h : readDeck dialect text = (.ok d, notes)) : ∃ lines,
      (lineDefinitions dialect text).foldlM addLine [] = .ok lines ∧
      ((keys lines).Nodup → d.lattices = lines.map fun l => ⟨l.1, l.2.map .name⟩) := by
  obtain ⟨s, es, hclauses, hbuild⟩ := exists_session_of_readDeck h
  refine ⟨s.lines, Session.lines_of_clauses hclauses, fun hnodup => ?_⟩
  obtain ⟨-, -, rfl⟩ := Builder.build_eq_ok_iff.1 hbuild
  exact lattices_builder hnodup es

section Lattices

variable {d : Document} {lines : Lines}

theorem mem_lattices_of_lookup (hlattices : d.lattices = lines.map fun l => ⟨l.1, l.2.map .name⟩)
    {s : String} {names : List String} (h : lines.lookup s = some names) :
    ⟨s, names.map .name⟩ ∈ d.lattices := by
  rw [hlattices]
  exact List.mem_map.2 ⟨_, mem_of_lookup h, rfl⟩

theorem name_mem_keys (hlattices : d.lattices = lines.map fun l => ⟨l.1, l.2.map .name⟩)
    {l : Lattice} (hl : l ∈ d.lattices) : l.name ∈ keys lines := by
  rw [hlattices] at hl
  obtain ⟨e, he, rfl⟩ := List.mem_map.1 hl
  exact mem_keys_of_mem he

end Lattices

/-- Each line of a deck that is read is expanded to what its body means, if every label is defined
once, the lines that a body names are defined before, and no label and no name in a body is that of
a reversed form. -/
theorem expand_eq_meaning {d : Document} {dialect : Dialect} {text : String} {notes : List Note}
    (h : readDeck dialect text = (.ok d, notes))
    (hlabels : (keys (lineDefinitions dialect text)).Nodup)
    (hforward : Forward (lineDefinitions dialect text))
    (hplain : Plain (lineDefinitions dialect text)) :
    (∀ s ∉ keys (lineDefinitions dialect text), deckMeaning dialect text s = [s]) ∧
    ∀ l ∈ lineDefinitions dialect text,
      deckMeaning dialect text l.1 = LineItem.meaningOf (deckMeaning dialect text) l.2 ∧
      (d.expand l.1).map (·.map Element.name) =
        .ok (LineItem.meaningOf (deckMeaning dialect text) l.2) := by
  obtain ⟨lines, hlines, hlattices⟩ := exists_lines_of_readDeck h
  obtain ⟨val, lines', hlines', hreads, hnodup, hkeys, hval⟩ := exists_reads hlabels hforward hplain
  rw [hlines] at hlines'
  cases hlines'
  replace hlattices := hlattices hnodup
  have hlawful := lawful_of_obtained (.read h)
  refine ⟨fun s hs => meanings_of_notMem hs, fun l hl => ?_⟩
  have hmeaning : deckMeaning dialect text l.1 =
      LineItem.meaningOf (deckMeaning dialect text) l.2 := meanings_eq hlabels hforward hl
  refine ⟨hmeaning, ?_⟩
  obtain ⟨names, hnames⟩ := mem_keys.1 (hkeys (mem_keys_of_mem hl))
  have hlattice : (⟨l.1, names.map .name⟩ : Lattice) ∈ d.lattices := by
    rw [hlattices]
    exact List.mem_map.2 ⟨_, hnames, rfl⟩
  obtain ⟨elements, helements⟩ := hlawful.exists_flattens hlattice
  rw [hlawful.expand_eq hlattice helements, ← hmeaning, deckMeaning, ← hval l hl,
    hreads.line _ hnames]
  exact congrArg Except.ok
    (map_name_of_flattens hlawful hreads hlattices helements names rfl (hreads.known _ hnames))

/-- A deck with a reversed line in a reversed group. -/
def turnedDeck : String :=
  "Q: MARK\nD: MARK\nA: LINE=(Q, D)\nB: LINE=(2*(A, -(D, -A)), 0*Q)\n"

/-- The body of the line `B` of this deck. -/
def turnedBody : List LineItem :=
  [.group 2 false [.name 1 false "A", .group 1 true [.name 1 false "D", .name 1 true "A"]],
    .name 0 false "Q"]

theorem lineDefinitions_turnedDeck : lineDefinitions .elegant turnedDeck =
    [("A", [.name 1 false "Q", .name 1 false "D"]), ("B", turnedBody)] := by
  cbv

/-- What is read from this deck. -/
def turnedDocument : Document where
  version := .current
  title := none
  info := none
  root := some "B"
  elements := [⟨"Q", none, .marker⟩, ⟨"D", none, .marker⟩]
  lattices :=
    [⟨"A", ["Q", "D"].map .name⟩, ⟨"A_REV", ["D", "Q"].map .name⟩,
      ⟨"A_REV_REV", ["Q", "D"].map .name⟩,
      ⟨"B", ["A", "A_REV_REV", "D", "A", "A_REV_REV", "D"].map .name⟩]
  extras := []

theorem readDeck_turnedDeck : readDeck .elegant turnedDeck = (.ok turnedDocument, []) := by
  unfold readDeck
  -- the values of the constants are not needed
  generalize constants = vars
  cbv

theorem forward_turnedDeck : Forward (lineDefinitions .elegant turnedDeck) := by
  rw [lineDefinitions_turnedDeck]
  rintro (_ | ⟨first, _ | ⟨second, before⟩⟩) name items after heq s hs hmem
  · cases heq
    revert s
    decide
  · cases heq
    revert s
    decide
  · simp at heq

theorem plain_turnedDeck : Plain (lineDefinitions .elegant turnedDeck) := by
  have hsuffix : ∀ l ∈ lineDefinitions .elegant turnedDeck, ∀ s ∈ l.1 :: LineItem.namesOf l.2,
      ¬ "_REV".toList <:+ s.toList := by
    rw [lineDefinitions_turnedDeck]
    decide
  exact fun l hl s hs => ne_reversedName_of_suffix (hsuffix l hl s hs)

/-- `expand_eq_meaning` for this deck: the lines that were made on the way mean what they should. -/
theorem expand_turnedDeck : (turnedDocument.expand "B").map (·.map Element.name) =
    .ok ["Q", "D", "Q", "D", "D", "Q", "D", "Q", "D", "D"] := by
  have hlabels : (keys (lineDefinitions .elegant turnedDeck)).Nodup := by
    rw [lineDefinitions_turnedDeck]
    decide
  have hmem : ("B", turnedBody) ∈ lineDefinitions .elegant turnedDeck := by
    rw [lineDefinitions_turnedDeck]
    exact List.mem_cons_of_mem _ List.mem_cons_self
  have hexpand := ((expand_eq_meaning readDeck_turnedDeck hlabels forward_turnedDeck
    plain_turnedDeck).2 _ hmem).2
  rw [hexpand, deckMeaning, lineDefinitions_turnedDeck]
  rfl

end Beamline.Document

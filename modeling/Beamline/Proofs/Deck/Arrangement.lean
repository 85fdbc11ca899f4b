import Beamline.Proofs.Deck.Lines

/-!
# Arranged items

* `LineItem.value` : what an item comes to, if it is known what each name comes to and how a name
  is turned;
* `LineItem.places` : the names in an item, each with whether it stands under a reversal;
* `extends_of_arrange` : arranging leaves the lines that are there and adds reversed forms behind
  them;
* `Keeps` : what the reversal of one name keeps of the lines and of the names, and
  `Keeps.arrange` : what the arrangement of items then keeps;
* `exists_arrange_of_split` : the items of a line are those of its last definition, arranged.
-/

namespace Beamline.Deck

open Table

/-! ## Items -/

mutual

/-- What an item comes to, if `val` tells what each name comes to. What is reversed comes from its
end, and `turn` turns each name in it. -/
def LineItem.value (turn : String → String) (val : String → List String) : LineItem → List String
  | .name count reversed s =>
    (List.replicate count (if reversed then (val s).reverse.map turn else val s)).flatten
  | .group count reversed items =>
    (List.replicate count (if reversed then (LineItem.valueOf turn val items).reverse.map turn
      else LineItem.valueOf turn val items)).flatten

/-- What items come to one after the other. -/
def LineItem.valueOf (turn : String → String) (val : String → List String) :
    List LineItem → List String
  | [] => []
  | i :: rest => LineItem.value turn val i ++ LineItem.valueOf turn val rest

end

mutual

/-- The names in an item in order of appearance, each with whether it stands behind a minus sign or
in a group that does, if the item itself does so already when `under` holds. -/
def LineItem.places (under : Bool) : LineItem → List (Bool × String)
  | .name _ reversed s => [(under || reversed, s)]
  | .group _ reversed items => LineItem.placesOf (under || reversed) items

/-- The names in items in order of appearance, each with whether it stands under a reversal. -/
def LineItem.placesOf (under : Bool) : List LineItem → List (Bool × String)
  | [] => []
  | i :: rest => LineItem.places under i ++ LineItem.placesOf under rest

end

mutual

theorem names_places (under : Bool) (i : LineItem) : (i.places under).map Prod.snd = i.names := by
  match i with
  | .name count reversed s => rfl
  | .group count reversed items => exact names_placesOf _ items

theorem names_placesOf (under : Bool) (items : List LineItem) :
    (LineItem.placesOf under items).map Prod.snd = LineItem.namesOf items := by
  match items with
  | [] => rfl
  | i :: rest =>
    rw [LineItem.placesOf, List.map_append, names_places under i, names_placesOf under rest]
    rfl

end

/-! ## Lines that are there -/

section Extends

variable {lines lines' : Lines}

theorem extends_of_reverseAll {names : List String} : ∀ {lines lines' : Lines}
    {names' : List String}, reverseAll lines names = .ok (names', lines') →
      Extends lines lines' := by
  induction names with
  | nil =>
    intro lines lines' names' h
    cases h
    exact .refl _
  | cons name names ih =>
    intro lines lines' names' h
    obtain ⟨⟨name₁, lines₁⟩, hone, h⟩ := bind_eq_ok.1 h
    obtain ⟨⟨names₂, lines₂⟩, hall, h⟩ := bind_eq_ok.1 h
    cases h
    exact (extends_of_reverseOne hone).trans (ih hall)

theorem extends_of_spread {count : Nat} {reversed : Bool} {names names' : List String}
    (h : spread lines count reversed names = .ok (names', lines')) : Extends lines lines' := by
  obtain ⟨once, honce, -⟩ := spread_eq_ok.1 h
  cases reversed with
  | false =>
    cases honce
    exact .refl _
  | true => exact extends_of_reverseAll honce

mutual

theorem extends_of_arrangeItem (lines : Lines) (i : LineItem) {names : List String}
    {lines' : Lines} (h : arrangeItem lines i = .ok (names, lines')) : Extends lines lines' := by
  match i with
  | .name count reversed s => exact extends_of_spread h
  | .group count reversed items =>
    obtain ⟨⟨names₁, lines₁⟩, hgroup, hspread⟩ := bind_eq_ok.1 h
    exact (extends_of_arrange lines items hgroup).trans (extends_of_spread hspread)

/-- The arrangement of items leaves the lines that are there and adds reversed forms behind them. -/
theorem extends_of_arrange (lines : Lines) (items : List LineItem) {names : List String}
    {lines' : Lines} (h : arrange lines items = .ok (names, lines')) : Extends lines lines' := by
  match items with
  | [] =>
    cases h
    exact .refl _
  | i :: rest =>
    obtain ⟨⟨names₁, lines₁⟩, hitem, h⟩ := bind_eq_ok.1 h
    obtain ⟨⟨names₂, lines₂⟩, hrest, h⟩ := bind_eq_ok.1 h
    cases h
    exact (extends_of_arrangeItem lines i hitem).trans (extends_of_arrange lines₁ rest hrest)

end

end Extends

/-! ## What reversals keep -/

/-- What the reversal of a name keeps, as long as the lines stay among those named `bound`: `I` of
the lines, `P` of the names among them (`P true` of those that are to be reversed), and `val` tells
what the names come to if `turn` turns a name. -/
structure Keeps (bound : List String) (I : Lines → Prop) (P : Bool → Lines → String → Prop)
    (turn : String → String) (val : String → List String) : Prop where
  mono : ∀ under lines lines' s, Extends lines lines' → I lines' → P under lines s →
    P under lines' s
  weaken : ∀ lines s, P true lines s → P false lines s
  reverse : ∀ lines lines' s s', I lines → P true lines s →
    reverseOne lines s = .ok (s', lines') → keys lines' ⊆ bound →
    I lines' ∧ P true lines' s' ∧ val s' = (val s).reverse.map turn

/-- Names that come to `es` one after the other, among lines that are as they should be. -/
structure Laid (I : Lines → Prop) (P : Bool → Lines → String → Prop) (val : String → List String)
    (under : Bool) (lines : Lines) (names es : List String) : Prop where
  sound : I lines
  each : ∀ s ∈ names, P under lines s
  value : names.flatMap val = es

namespace Keeps

variable {bound : List String} {I : Lines → Prop} {P : Bool → Lines → String → Prop}
  {turn : String → String} {val : String → List String} {lines lines' : Lines}

theorem reverseAll (h : Keeps bound I P turn val) {names : List String} :
    ∀ {lines lines' : Lines} {names' : List String}, I lines → (∀ s ∈ names, P true lines s) →
      Deck.reverseAll lines names = .ok (names', lines') → keys lines' ⊆ bound →
      Laid I P val true lines' names' (names.flatMap fun s => (val s).reverse.map turn) := by
  induction names with
  | nil =>
    intro lines lines' names' hlines _ heq _
    cases heq
    exact ⟨hlines, by simp, rfl⟩
  | cons name names ih =>
    intro lines lines' names' hlines hnames heq hbound
    rw [List.forall_mem_cons] at hnames
    obtain ⟨⟨name₁, lines₁⟩, hone, heq⟩ := bind_eq_ok.1 heq
    obtain ⟨⟨names₂, lines₂⟩, hall, heq⟩ := bind_eq_ok.1 heq
    cases heq
    have hextends₁ := extends_of_reverseOne hone
    have hextends₂ := extends_of_reverseAll hall
    obtain ⟨hlines₁, hname₁, hval⟩ := h.reverse _ _ _ _ hlines hnames.1 hone
      (List.Subset.trans hextends₂.subset hbound)
    have hlaid := ih hlines₁
      (fun s hs => h.mono _ _ _ s hextends₁ hlines₁ (hnames.2 s hs)) hall hbound
    refine ⟨hlaid.sound, List.forall_mem_cons.2
      ⟨h.mono _ _ _ _ hextends₂ hlaid.sound hname₁, hlaid.each⟩, ?_⟩
    rw [List.flatMap_cons, List.flatMap_cons, hval, hlaid.value]

theorem spread (h : Keeps bound I P turn val) {count : Nat} {under reversed : Bool}
    {names names' es : List String} (hlaid : Laid I P val (under || reversed) lines names es)
    (heq : Deck.spread lines count reversed names = .ok (names', lines'))
    (hbound : keys lines' ⊆ bound) : Laid I P val under lines' names'
      (List.replicate count (if reversed then es.reverse.map turn else es)).flatten := by
  obtain ⟨once, honce, rfl⟩ := spread_eq_ok.1 heq
  have hlaid' : Laid I P val under lines' once (if reversed then es.reverse.map turn else es) := by
    cases reversed with
    | false =>
      cases honce
      rw [Bool.or_false] at hlaid
      exact hlaid
    | true =>
      rw [Bool.or_true] at hlaid
      have hall := h.reverseAll hlaid.sound
        (fun s hs => hlaid.each s (List.mem_reverse.1 hs)) honce hbound
      refine ⟨hall.sound, fun s hs => ?_, ?_⟩
      · cases under with
        | false => exact h.weaken _ s (hall.each s hs)
        | true => exact hall.each s hs
      · rw [hall.value, ← hlaid.value, if_pos rfl, List.reverse_flatMap, List.map_flatMap]
        rfl
  refine ⟨hlaid'.sound, fun s hs => ?_, ?_⟩
  · obtain ⟨names', hnames', hs⟩ := List.mem_flatten.1 hs
    rw [List.eq_of_mem_replicate hnames'] at hs
    exact hlaid'.each s hs
  · rw [← hlaid'.value]
    clear heq
    induction count with
    | zero => rfl
    | succ count ih =>
      rw [List.replicate_succ, List.replicate_succ, List.flatten_cons, List.flatten_cons,
        List.flatMap_append, ih]

mutual

theorem arrangeItem (h : Keeps bound I P turn val) (lines : Lines) (under : Bool) (i : LineItem)
    (hlines : I lines) (hi : ∀ p ∈ i.places under, P p.1 lines p.2) {names : List String}
    {lines' : Lines} (heq : Deck.arrangeItem lines i = .ok (names, lines'))
    (hbound : keys lines' ⊆ bound) : Laid I P val under lines' names (i.value turn val) := by
  match i with
  | .name count reversed s =>
    have hs : P (under || reversed) lines s := hi _ (List.mem_singleton_self _)
    exact h.spread ⟨hlines, List.forall_mem_singleton.2 hs, List.flatMap_singleton val s⟩ heq hbound
  | .group count reversed items =>
    obtain ⟨⟨names₁, lines₁⟩, hgroup, hspread⟩ := bind_eq_ok.1 heq
    have hlaid := arrange h lines (under || reversed) items hlines hi hgroup
      (List.Subset.trans (extends_of_spread hspread).subset hbound)
    exact h.spread hlaid hspread hbound

/-- Items are arranged to names that come to what the items come to, and what each reversal keeps
is kept. -/
theorem arrange (h : Keeps bound I P turn val) (lines : Lines) (under : Bool)
    (items : List LineItem) (hlines : I lines)
    (hitems : ∀ p ∈ LineItem.placesOf under items, P p.1 lines p.2) {names : List String}
    {lines' : Lines} (heq : Deck.arrange lines items = .ok (names, lines'))
    (hbound : keys lines' ⊆ bound) :
    Laid I P val under lines' names (LineItem.valueOf turn val items) := by
  match items with
  | [] =>
    cases heq
    exact ⟨hlines, by simp, rfl⟩
  | i :: rest =>
    rw [LineItem.placesOf, List.forall_mem_append] at hitems
    obtain ⟨⟨names₁, lines₁⟩, hitem, heq⟩ := bind_eq_ok.1 heq
    obtain ⟨⟨names₂, lines₂⟩, hrest, heq⟩ := bind_eq_ok.1 heq
    cases heq
    have hextends₁ := extends_of_arrangeItem lines i hitem
    have hextends₂ := extends_of_arrange lines₁ rest hrest
    have hlaid := arrangeItem h lines under i hlines hitems.1 hitem
      (List.Subset.trans hextends₂.subset hbound)
    have hlaid' := arrange h lines₁ under rest hlaid.sound
      (fun p hp => h.mono _ _ _ _ hextends₁ hlaid.sound (hitems.2 p hp)) hrest hbound
    refine ⟨hlaid'.sound, ?_, ?_⟩
    · rw [List.forall_mem_append]
      exact ⟨fun s hs => h.mono _ _ _ s hextends₂ hlaid'.sound (hlaid.each s hs), hlaid'.each⟩
    · rw [List.flatMap_append, hlaid.value, hlaid'.value]
      rfl

end

end Keeps

/-! ## Definitions one after the other -/

section Definitions

variable {definitions : List (String × List LineItem)} {lines lines' last : Lines}

/-- What one definition does: its items are arranged, and its line is put among the lines. -/
theorem addLine_eq_ok {l : String × List LineItem} : addLine lines l = .ok lines' ↔
    ∃ names lines₁, arrange lines l.2 = .ok (names, lines₁) ∧ lines' = put l.1 names lines₁ := by
  constructor
  · intro h
    obtain ⟨⟨names, lines₁⟩, harrange, h⟩ := bind_eq_ok.1 h
    cases h
    exact ⟨names, lines₁, harrange, rfl⟩
  · rintro ⟨names, lines₁, harrange, rfl⟩
    exact bind_eq_ok.2 ⟨_, harrange, rfl⟩

theorem foldlM_append_eq_ok {before after : List (String × List LineItem)} :
    (before ++ after).foldlM addLine lines = .ok last ↔ ∃ lines',
      before.foldlM addLine lines = .ok lines' ∧ after.foldlM addLine lines' = .ok last := by
  rw [List.foldlM_append]
  exact bind_eq_ok

theorem foldlM_cons_eq_ok {name : String} {items : List LineItem}
    {after : List (String × List LineItem)} :
    ((name, items) :: after).foldlM addLine lines = .ok last ↔ ∃ names lines',
      arrange lines items = .ok (names, lines') ∧
      after.foldlM addLine (put name names lines') = .ok last := by
  rw [List.foldlM_cons]
  constructor
  · intro h
    obtain ⟨lines₁, hadd, h⟩ := bind_eq_ok.1 h
    obtain ⟨names, lines', harrange, rfl⟩ := addLine_eq_ok.1 hadd
    exact ⟨names, lines', harrange, h⟩
  · rintro ⟨names, lines', harrange, h⟩
    exact bind_eq_ok.2 ⟨_, addLine_eq_ok.2 ⟨names, lines', harrange, rfl⟩, h⟩

theorem keys_subset_put {α : Type} {t : List (String × α)} (key : String) (v : α) :
    keys t ⊆ keys (put key v t) :=
  fun _ hs => mem_keys_put.2 (.inl hs)

/-- No name of a line is lost, and a line whose label is not defined again stays as it is. -/
theorem kept_of_foldlM {after : List (String × List LineItem)} : ∀ {lines : Lines},
    after.foldlM addLine lines = .ok last → keys lines ⊆ keys last ∧
      ∀ s ∉ keys after, ∀ items, lines.lookup s = some items → last.lookup s = some items := by
  induction after with
  | nil =>
    intro lines h
    cases h
    exact ⟨List.Subset.refl _, fun _ _ _ h => h⟩
  | cons l after ih =>
    intro lines h
    obtain ⟨names, lines', harrange, h⟩ := foldlM_cons_eq_ok.1 h
    have hextends := extends_of_arrange _ _ harrange
    obtain ⟨hkeys, hlookup⟩ := ih h
    refine ⟨List.Subset.trans hextends.subset
      (List.Subset.trans (keys_subset_put _ _) hkeys), fun s hs items hitems => ?_⟩
    rw [keys, List.map_cons, List.mem_cons, not_or] at hs
    apply hlookup s hs.2
    rw [lookup_put, if_neg hs.1]
    exact hextends.lookup_eq_some hitems

/-- The items of a line are those of its last definition, arranged among the lines before. -/
theorem exists_arrange_of_split (h : definitions.foldlM addLine [] = .ok last)
    {before after : List (String × List LineItem)} {name : String} {items : List LineItem}
    (heq : definitions = before ++ (name, items) :: after) : ∃ lines names lines',
      before.foldlM addLine [] = .ok lines ∧ arrange lines items = .ok (names, lines') ∧
      keys (put name names lines') ⊆ keys last ∧
      (name ∉ keys after → last.lookup name = some names) := by
  rw [heq] at h
  obtain ⟨lines, hbefore, h⟩ := foldlM_append_eq_ok.1 h
  obtain ⟨names, lines', harrange, h⟩ := foldlM_cons_eq_ok.1 h
  obtain ⟨hkeys, hlookup⟩ := kept_of_foldlM h
  refine ⟨lines, names, lines', hbefore, harrange, hkeys, fun hafter => hlookup name hafter _ ?_⟩
  rw [lookup_put, if_pos rfl]

/-- A line has the label of a definition, or it is a reversed form. -/
theorem mem_keys_of_foldlM {after : List (String × List LineItem)} : ∀ {lines : Lines},
    after.foldlM addLine lines = .ok last → ∀ s ∈ keys last,
      s ∈ keys lines ∨ s ∈ keys after ∨ ∃ x, s = reversedName x := by
  induction after with
  | nil =>
    intro lines h s hs
    cases h
    exact .inl hs
  | cons l after ih =>
    intro lines h s hs
    obtain ⟨names, lines', harrange, h⟩ := foldlM_cons_eq_ok.1 h
    rcases ih h s hs with hs | hs | hs
    · rcases mem_keys_put.1 hs with hs | rfl
      · exact ((extends_of_arrange _ _ harrange).mem_keys hs).imp_right .inr
      · exact .inr (.inl List.mem_cons_self)
    · exact .inr (.inl (List.mem_cons_of_mem _ hs))
    · exact .inr (.inr hs)

/-- Every label of a definition is that of a line in the end. -/
theorem labels_subset (h : definitions.foldlM addLine [] = .ok last) :
    keys definitions ⊆ keys last := by
  intro name hname
  obtain ⟨items, hitems⟩ := mem_keys.1 hname
  obtain ⟨before, after, heq⟩ := List.append_of_mem hitems
  obtain ⟨lines, names, lines', -, -, hsub, -⟩ := exists_arrange_of_split h heq
  exact hsub (mem_keys_put.2 (.inr rfl))

end Definitions

end Beamline.Deck

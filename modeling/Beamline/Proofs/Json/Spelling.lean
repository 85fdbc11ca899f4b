import Beamline.Proofs.Json.Reader

/-!
# Every spelling is read

* `Spells` : a text is a spelling of a value, whatever gaps it has between its tokens;
* `Reads` : a reader reads a text as a value, whatever follows it;
* `reads_of_spells` : every spelling of a readable value is read as the value, and
  `parseChars_of_spells` : so it is as a whole text.
-/

namespace Beamline.Json

open Decimal Text

/-! ## Spellings -/

mutual

/-- A text spells a value. -/
def Spells : Json → List Char → Prop
  | .arr items, cs => ∃ body, cs = '[' :: body ∧ SpellsItems items body
  | .obj members, cs => ∃ body, cs = '{' :: body ∧ SpellsMembers members body
  | .null, cs => cs = scalarText .null
  | .bool b, cs => cs = scalarText (.bool b)
  | .num n, cs => cs = scalarText (.num n)
  | .str s, cs => cs = scalarText (.str s)

/-- Items up to the closing bracket. -/
def SpellsItems : List Json → List Char → Prop
  | [], cs => ∃ g, Gap g ∧ cs = g ++ [']']
  | v :: vs, cs => ∃ g t more, Gap g ∧ Spells v t ∧ SpellsMoreItems vs more ∧ cs = g ++ (t ++ more)

/-- The items behind the first. -/
def SpellsMoreItems : List Json → List Char → Prop
  | [], cs => ∃ g, Gap g ∧ cs = g ++ [']']
  | v :: vs, cs => ∃ g g' t more, Gap g ∧ Gap g' ∧ Spells v t ∧ SpellsMoreItems vs more ∧
    cs = g ++ ',' :: (g' ++ (t ++ more))

/-- Members up to the closing brace. -/
def SpellsMembers : List (String × Json) → List Char → Prop
  | [], cs => ∃ g, Gap g ∧ cs = g ++ ['}']
  | (key, v) :: ms, cs => ∃ g g₁ g₂ t more, Gap g ∧ Gap g₁ ∧ Gap g₂ ∧ Spells v t ∧
    SpellsMoreMembers ms more ∧ cs = g ++ (quote key ++ (g₁ ++ ':' :: (g₂ ++ (t ++ more))))

/-- The members behind the first. -/
def SpellsMoreMembers : List (String × Json) → List Char → Prop
  | [], cs => ∃ g, Gap g ∧ cs = g ++ ['}']
  | (key, v) :: ms, cs => ∃ g g' g₁ g₂ t more, Gap g ∧ Gap g' ∧ Gap g₁ ∧ Gap g₂ ∧ Spells v t ∧
    SpellsMoreMembers ms more ∧
    cs = g ++ ',' :: (g' ++ (quote key ++ (g₁ ++ ':' :: (g₂ ++ (t ++ more)))))

end

/-! ## Reading a list of spellings -/

/-- A text whose first character opens a value or a name. -/
def Opens (cs : List Char) : Prop := ∃ c t, cs = c :: t ∧ isGap c = false ∧ c ≠ ']' ∧ c ≠ '}'

/-- `item` reads a text as a value, whatever follows it. -/
structure Reads (item : List Char → Outcome (Got Json)) (v : Json) (cs : List Char) : Prop where
  opens : Opens cs
  read : ∀ g rest, Gap g → Delimited rest → item (g ++ (cs ++ rest)) = .ok (v, rest)

theorem delimited_of_isGap {c : Char} (h : isGap c) (cs : List Char) : Delimited (c :: cs) := by
  simp only [isGap, Bool.or_eq_true, beq_iff_eq] at h
  intro d hd
  rw [List.head?_cons, Option.mem_some_iff] at hd
  subst hd
  rcases h with ((rfl | rfl) | rfl) | rfl <;> decide

theorem delimited_append {g cs : List Char} (hg : Gap g) (hcs : Delimited cs) :
    Delimited (g ++ cs) := by
  cases g with
  | nil => exact hcs
  | cons c g => exact delimited_of_isGap (hg c List.mem_cons_self) _

theorem Opens.head {cs : List Char} (h : Opens cs) (rest : List Char) :
    ∀ c ∈ (cs ++ rest).head?, isGap c = false := by
  obtain ⟨c, t, rfl, hc, -⟩ := h
  intro d hd
  cases hd
  exact hc

/-- A list ends where the closing mark stands. -/
theorem separator_close {close : Char} (hclose : isGap close = false) (atEnd other : Flaw)
    {g : List Char} (hg : Gap g) (rest : List Char) :
    separator close atEnd other (g ++ close :: rest) = .ok (false, rest) := by
  unfold separator
  rw [skipGap_append hg, skipGap_eq_self (by simpa using hclose)]
  dsimp only
  rw [if_pos rfl]

/-- A list goes on where a comma stands. -/
theorem separator_comma {close : Char} (hclose : close = ']' ∨ close = '}') (atEnd other : Flaw)
    {g g' cs : List Char} (hg : Gap g) (hg' : Gap g') (hcs : Opens cs) (rest : List Char) :
    separator close atEnd other (g ++ ',' :: (g' ++ (cs ++ rest))) = .ok (true, cs ++ rest) := by
  unfold separator
  rw [skipGap_append hg, skipGap_eq_self (by simp; decide)]
  dsimp only
  rw [if_neg (by rcases hclose with rfl | rfl <;> decide), if_pos rfl, skipGap_append hg',
    skipGap_eq_self (hcs.head rest)]
  obtain ⟨c, t, rfl, -, hbracket, hbrace⟩ := hcs
  dsimp only [List.cons_append]
  rw [if_neg (by rcases hclose with rfl | rfl <;> assumption)]

section Lists

variable {item : List Char → Outcome (Got Json)}

theorem delimited_moreItems {vs : List Json} {more : List Char} (h : SpellsMoreItems vs more)
    (rest : List Char) : Delimited (more ++ rest) := by
  cases vs with
  | nil =>
    obtain ⟨g, hg, rfl⟩ := h
    rw [List.append_assoc]
    exact delimited_append hg (by intro c hc; cases hc; decide)
  | cons v vs =>
    obtain ⟨g, g', t, more, hg, -, -, -, rfl⟩ := h
    rw [List.append_assoc]
    exact delimited_append hg (by intro c hc; cases hc; decide)

theorem length_lt_moreItems {vs : List Json} {more : List Char} (h : SpellsMoreItems vs more) :
    vs.length < more.length := by
  induction vs generalizing more with
  | nil =>
    obtain ⟨g, -, rfl⟩ := h
    simp
  | cons v vs ih =>
    obtain ⟨g, g', t, more, -, -, -, hmore, rfl⟩ := h
    have := ih hmore
    simp only [List.length_append, List.length_cons]
    omega

/-- Items behind the first are read if each of them is. -/
theorem moreItems_of_spells {vs : List Json} (hitem : ∀ v ∈ vs, ∀ t, Spells v t → Reads item v t)
    {more : List Char} (h : SpellsMoreItems vs more) (rest : List Char) :
    ∀ bound : List Char, vs.length < bound.length →
      moreItems item bound (more ++ rest) = .ok (vs, rest) := by
  induction vs generalizing more with
  | nil =>
    intro bound hbound
    obtain ⟨b, bound, rfl⟩ := List.exists_cons_of_length_pos hbound
    obtain ⟨g, hg, rfl⟩ := h
    rw [List.append_assoc]
    exact bind_eq_ok.2 ⟨_, separator_close (by decide) _ _ hg rest, rfl⟩
  | cons v vs ih =>
    intro bound hbound
    obtain ⟨b, bound, rfl⟩ := List.exists_cons_of_length_pos (Nat.zero_lt_of_lt hbound)
    obtain ⟨g, g', t, more, hg, hg', ht, hmore, rfl⟩ := h
    have hreads := hitem v List.mem_cons_self t ht
    have hv := hreads.read [] _ gap_nil (delimited_moreItems hmore rest)
    have hvs := ih (fun w hw => hitem w (List.mem_cons_of_mem _ hw)) hmore bound
      (by simpa using hbound)
    have hsep := separator_comma (.inl rfl) .endInArray .noCommaOrBracket hg hg' hreads.opens
      (more ++ rest)
    simp only [List.append_assoc, List.cons_append]
    exact bind_eq_ok.2 ⟨_, hsep, bind_eq_ok.2 ⟨_, hv, bind_eq_ok.2 ⟨_, hvs, rfl⟩⟩⟩

theorem itemList_of_spells {vs : List Json} (hitem : ∀ v ∈ vs, ∀ t, Spells v t → Reads item v t)
    {cs : List Char} (h : SpellsItems vs cs) (rest : List Char) :
    itemList item (cs ++ rest) = .ok (vs, rest) := by
  unfold itemList
  cases vs with
  | nil =>
    obtain ⟨g, hg, rfl⟩ := h
    rw [List.append_assoc, skipGap_append hg, List.cons_append, skipGap_eq_self (by simp; decide)]
    dsimp only
    rw [if_pos rfl, List.nil_append]
  | cons v vs =>
    obtain ⟨g, t, more, hg, ht, hmore, rfl⟩ := h
    have hreads := hitem v List.mem_cons_self t ht
    have hv := hreads.read [] _ gap_nil (delimited_moreItems hmore rest)
    have hvs := moreItems_of_spells (fun w hw => hitem w (List.mem_cons_of_mem _ hw)) hmore rest
      (more ++ rest) (by
        have := length_lt_moreItems hmore
        rw [List.length_append]
        omega)
    rw [List.append_assoc, List.append_assoc, skipGap_append hg,
      skipGap_eq_self (hreads.opens.head _)]
    obtain ⟨c, t, rfl, -, hbracket, -⟩ := hreads.opens
    dsimp only [List.cons_append]
    rw [if_neg hbracket]
    exact bind_eq_ok.2 ⟨_, hv, bind_eq_ok.2 ⟨_, hvs, rfl⟩⟩

theorem delimited_moreMembers {ms : List (String × Json)} {more : List Char}
    (h : SpellsMoreMembers ms more) (rest : List Char) : Delimited (more ++ rest) := by
  rcases ms with _ | ⟨⟨key, v⟩, ms⟩
  · obtain ⟨g, hg, rfl⟩ := h
    rw [List.append_assoc]
    exact delimited_append hg (by intro c hc; cases hc; decide)
  · obtain ⟨g, g', g₁, g₂, t, more, hg, -, -, -, -, -, rfl⟩ := h
    rw [List.append_assoc]
    exact delimited_append hg (by intro c hc; cases hc; decide)

theorem length_lt_moreMembers {ms : List (String × Json)} {more : List Char}
    (h : SpellsMoreMembers ms more) : ms.length < more.length := by
  induction ms generalizing more with
  | nil =>
    obtain ⟨g, -, rfl⟩ := h
    simp
  | cons m ms ih =>
    obtain ⟨g, g', g₁, g₂, t, more, -, -, -, -, -, hmore, rfl⟩ := h
    have := ih hmore
    simp only [List.length_append, List.length_cons]
    omega

theorem opens_quote (key : String) (cs : List Char) : Opens (quote key ++ cs) :=
  ⟨'"', _, rfl, by decide, by decide, by decide⟩

theorem member_of_reads (key : String) {v : Json} {t g₁ g₂ rest : List Char}
    (h : Reads item v t) (hg₁ : Gap g₁) (hg₂ : Gap g₂) (hrest : Delimited rest) :
    member item (quote key ++ (g₁ ++ ':' :: (g₂ ++ (t ++ rest)))) = .ok ((key, v), rest) := by
  have hkey := string_quote key (g₁ ++ ':' :: (g₂ ++ (t ++ rest)))
  have hcolon : skipGap (g₁ ++ ':' :: (g₂ ++ (t ++ rest))) = ':' :: (g₂ ++ (t ++ rest)) := by
    rw [skipGap_append hg₁, skipGap_eq_self (by simp; decide)]
  simp only [quote, List.cons_append, List.append_assoc, List.nil_append]
  unfold member
  refine bind_eq_ok.2 ⟨_, hkey, ?_⟩
  dsimp only
  rw [hcolon]
  exact bind_eq_ok.2 ⟨_, h.read g₂ rest hg₂ hrest, rfl⟩

/-- Members behind the first are read if the value of each of them is. -/
theorem moreMembers_of_spells {ms : List (String × Json)}
    (hitem : ∀ m ∈ ms, ∀ t, Spells m.2 t → Reads item m.2 t) {more : List Char}
    (h : SpellsMoreMembers ms more) (rest : List Char) :
    ∀ bound : List Char, ms.length < bound.length →
      moreMembers item bound (more ++ rest) = .ok (ms, rest) := by
  induction ms generalizing more with
  | nil =>
    intro bound hbound
    obtain ⟨b, bound, rfl⟩ := List.exists_cons_of_length_pos hbound
    obtain ⟨g, hg, rfl⟩ := h
    rw [List.append_assoc]
    exact bind_eq_ok.2 ⟨_, separator_close (by decide) _ _ hg rest, rfl⟩
  | cons m ms ih =>
    intro bound hbound
    obtain ⟨b, bound, rfl⟩ := List.exists_cons_of_length_pos (Nat.zero_lt_of_lt hbound)
    obtain ⟨key, v⟩ := m
    obtain ⟨g, g', g₁, g₂, t, more, hg, hg', hg₁, hg₂, ht, hmore, rfl⟩ := h
    have hm := member_of_reads key (hitem _ List.mem_cons_self t ht) hg₁ hg₂
      (delimited_moreMembers hmore rest)
    have hms := ih (fun m hm => hitem m (List.mem_cons_of_mem _ hm)) hmore bound
      (by simpa using hbound)
    have hsep := separator_comma (.inr rfl) .endInObject .noCommaOrBrace hg hg'
      (opens_quote key []) (g₁ ++ ':' :: (g₂ ++ (t ++ (more ++ rest))))
    simp only [List.append_assoc, List.cons_append, List.append_nil] at hsep ⊢
    exact bind_eq_ok.2 ⟨_, hsep, bind_eq_ok.2 ⟨_, hm, bind_eq_ok.2 ⟨_, hms, rfl⟩⟩⟩

theorem memberList_of_spells {ms : List (String × Json)}
    (hitem : ∀ m ∈ ms, ∀ t, Spells m.2 t → Reads item m.2 t) {cs : List Char}
    (h : SpellsMembers ms cs) (rest : List Char) :
    memberList item (cs ++ rest) = .ok (ms, rest) := by
  unfold memberList
  rcases ms with _ | ⟨⟨key, v⟩, ms⟩
  · obtain ⟨g, hg, rfl⟩ := h
    rw [List.append_assoc, skipGap_append hg, List.cons_append, skipGap_eq_self (by simp; decide)]
    dsimp only
    rw [if_pos rfl, List.nil_append]
  · obtain ⟨g, g₁, g₂, t, more, hg, hg₁, hg₂, ht, hmore, rfl⟩ := h
    have hm := member_of_reads key (hitem _ List.mem_cons_self t ht) hg₁ hg₂
      (delimited_moreMembers hmore rest)
    have hms := moreMembers_of_spells (fun m hm => hitem m (List.mem_cons_of_mem _ hm)) hmore rest
      (more ++ rest) (by
        have := length_lt_moreMembers hmore
        rw [List.length_append]
        omega)
    simp only [List.append_assoc, List.cons_append]
    have hskip := skipGap_eq_self
      ((opens_quote key []).head (g₁ ++ ':' :: (g₂ ++ (t ++ (more ++ rest)))))
    rw [List.append_nil] at hskip
    rw [skipGap_append hg, hskip]
    exact bind_eq_ok.2 ⟨_, hm, bind_eq_ok.2 ⟨_, hms, rfl⟩⟩

end Lists

/-! ## Reading a spelling -/

theorem value_gap {g : List Char} (hg : Gap g) (room : Nat) (cs : List Char) :
    value room (g ++ cs) = value room cs := by
  unfold value
  rw [skipGap_append hg]

/-- A reader of values reads a text if it does so with nothing in front. -/
theorem reads_value {room : Nat} {v : Json} {cs : List Char} (hopens : Opens cs)
    (h : ∀ rest, Delimited rest → value room (cs ++ rest) = .ok (v, rest)) :
    Reads (value room) v cs :=
  ⟨hopens, fun g rest hg hrest => by rw [value_gap hg, h rest hrest]⟩

theorem word_append (v : Json) (expected rest : List Char) :
    word v expected (expected ++ rest) = .ok (v, rest) := by
  induction expected with
  | nil => rfl
  | cons e expected ih =>
    rw [List.cons_append, word, if_pos rfl, ih]

theorem isDigit_ne {c : Char} (h : c.isDigit) : isGap c = false ∧ c ≠ ']' ∧ c ≠ '}' ∧ c ≠ 'n' ∧
    c ≠ 't' ∧ c ≠ 'f' ∧ c ≠ '-' := by
  refine ⟨isGap_eq_false (by simp) h, ?_, ?_, ?_, ?_, ?_, ?_⟩
  all_goals exact ne_of_test h (by decide)

/-- The text of a legible number is read as the number. -/
theorem reads_number {n : Number} (hn : n.Legible) (room : Nat) :
    Reads (value room) (.num n) (numberText n) := by
  obtain ⟨negative, d, ds, htext, hd, hread⟩ := exists_numberText hn
  obtain ⟨hgap, hbracket, hbrace, hnull, htrue, hfalse, hminus⟩ := isDigit_ne hd
  rw [htext]
  cases negative with
  | true =>
    refine reads_value ⟨'-', _, rfl, by decide, by decide, by decide⟩ fun rest hrest => ?_
    rw [← hread rest hrest]
    unfold value signText
    rw [if_pos rfl, List.cons_append, skipGap_eq_self (by simp; decide)]
    rfl
  | false =>
    refine reads_value ⟨d, _, rfl, hgap, hbracket, hbrace⟩ fun rest hrest => ?_
    rw [← hread rest hrest]
    unfold value signText
    rw [if_neg (by decide), List.cons_append, skipGap_eq_self (by simpa using hgap)]
    dsimp only
    rw [if_neg hnull, if_neg htrue, if_neg hfalse, if_neg hminus, if_pos hd]

/-- Every spelling of a readable value is read as the value. -/
theorem reads_of_spells {room : Nat} {v : Json} {cs : List Char} (hv : Readable room v)
    (hs : Spells v cs) : Reads (value room) v cs := by
  -- on the room and not on the value, whose items and members have one less
  induction room using Nat.strongRecOn generalizing v cs with
  | ind room ih =>
    cases v with
    | null =>
      rw [Spells.eq_def] at hs
      rw [show cs = _ from hs]
      exact reads_value ⟨'n', _, rfl, by decide, by decide, by decide⟩ fun rest _ => by
        unfold value
        exact word_append .null ['u', 'l', 'l'] rest
    | bool b =>
      rw [Spells.eq_def] at hs
      rw [show cs = _ from hs]
      cases b with
      | true =>
        exact reads_value ⟨'t', _, rfl, by decide, by decide, by decide⟩ fun rest _ => by
          unfold value
          exact word_append (.bool true) ['r', 'u', 'e'] rest
      | false =>
        exact reads_value ⟨'f', _, rfl, by decide, by decide, by decide⟩ fun rest _ => by
          unfold value
          exact word_append (.bool false) ['a', 'l', 's', 'e'] rest
    | num n =>
      rw [Spells.eq_def] at hs
      rw [Readable.eq_def] at hv
      rw [show cs = _ from hs]
      exact reads_number hv room
    | str s =>
      rw [Spells.eq_def] at hs
      rw [show cs = _ from hs]
      refine reads_value (by simpa [scalarText] using opens_quote s []) fun rest _ => ?_
      have hstring := string_quote s rest
      simp only [scalarText, quote, List.cons_append, List.append_assoc, List.nil_append]
      unfold value
      exact bind_eq_ok.2 ⟨_, hstring, rfl⟩
    | arr items =>
      rw [Spells.eq_def] at hs
      obtain ⟨body, rfl, hbody⟩ := hs
      cases room with
      | zero => exact hv.elim
      | succ room =>
        refine reads_value ⟨'[', _, rfl, by decide, by decide, by decide⟩ fun rest _ => ?_
        exact bind_eq_ok.2 ⟨_, itemList_of_spells
          (fun v hmem t ht => ih room (Nat.lt_succ_self _) (hv v hmem) ht) hbody rest, rfl⟩
    | obj members =>
      rw [Spells.eq_def] at hs
      obtain ⟨body, rfl, hbody⟩ := hs
      cases room with
      | zero => exact hv.elim
      | succ room =>
        refine reads_value ⟨'{', _, rfl, by decide, by decide, by decide⟩ fun rest _ => ?_
        refine bind_eq_ok.2 ⟨_, memberList_of_spells
          (fun m hmem t ht => ih room (Nat.lt_succ_self _) (hv.2 m hmem) ht) hbody rest, ?_⟩
        dsimp only
        rw [Table.ofList_of_nodup hv.1]
        rfl

/-- A text that spells a readable value, gaps around it, is read as the value. -/
theorem parseChars_of_spells {v : Json} {cs g : List Char} (hv : Readable maxDepth v)
    (hs : Spells v cs) (hg : Gap g) : parseChars (cs ++ g) = .ok v := by
  have hdelimited : Delimited g := by
    simpa using delimited_append hg delimited_nil
  have hread := (reads_of_spells hv hs).read [] g gap_nil hdelimited
  have hskip : skipGap g = [] := by
    have := skipGap_append hg []
    rwa [List.append_nil] at this
  unfold parseChars
  rw [← List.nil_append (cs ++ g), hread]
  dsimp only
  rw [hskip]

end Beamline.Json

import Beamline.Proofs.Json.Writer

/-!
# Values that nest too deep

A spelling of a value that nests deeper than a reader has room for is refused where the reader runs
out of room, and for no other reason.

* `Sinks` : a reader refuses a text for its depth, whatever follows it;
* `sinks_of_spells` : every spelling of a value that would be read with more room;
* `parse_line_tooDeep`, `parse_layoutText_tooDeep` : so is the text of a value that nests too deep.
-/

namespace Beamline.Json

open Decimal Text

/-- What fails for the depth of a value. -/
def TooDeep {α : Type} (x : Outcome α) : Prop :=
  ∃ stop, x = .error stop ∧ stop.flaw = .tooDeep

theorem TooDeep.bind {α β : Type} {x : Outcome α} (h : TooDeep x) (f : α → Outcome β) :
    TooDeep (x >>= f) := by
  obtain ⟨stop, rfl, hflaw⟩ := h
  exact ⟨stop, rfl, hflaw⟩

theorem TooDeep.of_bind_ok {α β : Type} {x : Outcome α} {a : α} {f : α → Outcome β}
    (hx : x = .ok a) (h : TooDeep (f a)) : TooDeep (x >>= f) := by
  rw [hx]
  exact h

/-- `item` refuses a text for its depth, whatever follows it. -/
structure Sinks (item : List Char → Outcome (Got Json)) (cs : List Char) : Prop where
  opens : Opens cs
  fails : ∀ g rest, Gap g → Delimited rest → TooDeep (item (g ++ (cs ++ rest)))

section Lists

variable {item : List Char → Outcome (Got Json)} {P : Json → Prop}
  (hreads : ∀ v, P v → ∀ t, Spells v t → Reads item v t)
include hreads

/-- Items behind the first are refused if one of them is, those before it being read. -/
theorem tooDeep_moreItems {vs : List Json}
    (hsinks : ∀ v ∈ vs, ¬ P v → ∀ t, Spells v t → Sinks item t) (hdeep : ¬ ∀ v ∈ vs, P v)
    {more : List Char} (h : SpellsMoreItems vs more) (rest : List Char) :
    ∀ bound : List Char, vs.length < bound.length →
      TooDeep (moreItems item bound (more ++ rest)) := by
  induction vs generalizing more with
  | nil => exact absurd (fun v hv => absurd hv List.not_mem_nil) hdeep
  | cons v vs ih =>
    intro bound hbound
    obtain ⟨b, bound, rfl⟩ := List.exists_cons_of_length_pos (Nat.zero_lt_of_lt hbound)
    obtain ⟨g, g', t, more, hg, hg', ht, hmore, rfl⟩ := h
    have hrest := delimited_moreItems hmore rest
    simp only [List.append_assoc, List.cons_append]
    by_cases hv : P v
    · have hread := hreads v hv t ht
      have hsep := separator_comma (.inl rfl) .endInArray .noCommaOrBracket hg hg' hread.opens
        (more ++ rest)
      have hvs := ih (fun w hw => hsinks w (List.mem_cons_of_mem _ hw))
        (fun hall => hdeep (List.forall_mem_cons.2 ⟨hv, hall⟩)) hmore bound (by simpa using hbound)
      exact .of_bind_ok hsep (.of_bind_ok (hread.read [] _ gap_nil hrest) (hvs.bind _))
    · have hsink := hsinks v List.mem_cons_self hv t ht
      have hsep := separator_comma (.inl rfl) .endInArray .noCommaOrBracket hg hg' hsink.opens
        (more ++ rest)
      exact .of_bind_ok hsep ((hsink.fails [] _ gap_nil hrest).bind _)

theorem tooDeep_itemList {vs : List Json}
    (hsinks : ∀ v ∈ vs, ¬ P v → ∀ t, Spells v t → Sinks item t) (hdeep : ¬ ∀ v ∈ vs, P v)
    {cs : List Char} (h : SpellsItems vs cs) (rest : List Char) :
    TooDeep (itemList item (cs ++ rest)) := by
  cases vs with
  | nil => exact absurd (fun v hv => absurd hv List.not_mem_nil) hdeep
  | cons v vs =>
    obtain ⟨g, t, more, hg, ht, hmore, rfl⟩ := h
    have hrest := delimited_moreItems hmore rest
    have hopens : Opens t := by
      by_cases hv : P v
      · exact (hreads v hv t ht).opens
      · exact (hsinks v List.mem_cons_self hv t ht).opens
    unfold itemList
    rw [List.append_assoc, List.append_assoc, skipGap_append hg, skipGap_eq_self (hopens.head _)]
    obtain ⟨c, t, rfl, -, hbracket, -⟩ := hopens
    dsimp only [List.cons_append]
    rw [if_neg hbracket]
    by_cases hv : P v
    · have hvs := tooDeep_moreItems hreads (fun w hw => hsinks w (List.mem_cons_of_mem _ hw))
        (fun hall => hdeep (List.forall_mem_cons.2 ⟨hv, hall⟩)) hmore rest (more ++ rest) (by
          have := length_lt_moreItems hmore
          rw [List.length_append]
          omega)
      exact .of_bind_ok ((hreads v hv _ ht).read [] _ gap_nil hrest) (hvs.bind _)
    · exact ((hsinks v List.mem_cons_self hv _ ht).fails [] _ gap_nil hrest).bind _

omit hreads in
theorem tooDeep_member (key : String) {t g₁ g₂ rest : List Char} (h : Sinks item t) (hg₁ : Gap g₁)
    (hg₂ : Gap g₂) (hrest : Delimited rest) :
    TooDeep (member item (quote key ++ (g₁ ++ ':' :: (g₂ ++ (t ++ rest))))) := by
  have hkey := string_quote key (g₁ ++ ':' :: (g₂ ++ (t ++ rest)))
  have hcolon : skipGap (g₁ ++ ':' :: (g₂ ++ (t ++ rest))) = ':' :: (g₂ ++ (t ++ rest)) := by
    rw [skipGap_append hg₁, skipGap_eq_self (by simp; decide)]
  simp only [quote, List.cons_append, List.append_assoc, List.nil_append]
  unfold member
  refine .of_bind_ok hkey ?_
  dsimp only
  rw [hcolon]
  exact (h.fails g₂ rest hg₂ hrest).bind _

/-- Members behind the first are refused if the value of one of them is, those before it being
read. -/
theorem tooDeep_moreMembers {ms : List (String × Json)}
    (hsinks : ∀ m ∈ ms, ¬ P m.2 → ∀ t, Spells m.2 t → Sinks item t) (hdeep : ¬ ∀ m ∈ ms, P m.2)
    {more : List Char} (h : SpellsMoreMembers ms more) (rest : List Char) :
    ∀ bound : List Char, ms.length < bound.length →
      TooDeep (moreMembers item bound (more ++ rest)) := by
  induction ms generalizing more with
  | nil => exact absurd (fun m hm => absurd hm List.not_mem_nil) hdeep
  | cons m ms ih =>
    intro bound hbound
    obtain ⟨b, bound, rfl⟩ := List.exists_cons_of_length_pos (Nat.zero_lt_of_lt hbound)
    obtain ⟨key, v⟩ := m
    obtain ⟨g, g', g₁, g₂, t, more, hg, hg', hg₁, hg₂, ht, hmore, rfl⟩ := h
    have hrest := delimited_moreMembers hmore rest
    have hsep := separator_comma (.inr rfl) .endInObject .noCommaOrBrace hg hg'
      (opens_quote key []) (g₁ ++ ':' :: (g₂ ++ (t ++ (more ++ rest))))
    simp only [List.append_assoc, List.cons_append, List.append_nil] at hsep ⊢
    refine .of_bind_ok hsep ?_
    by_cases hv : P v
    · have hms := ih (fun m hm => hsinks m (List.mem_cons_of_mem _ hm))
        (fun hall => hdeep (List.forall_mem_cons.2 ⟨hv, hall⟩)) hmore bound (by simpa using hbound)
      exact .of_bind_ok (member_of_reads key (hreads v hv t ht) hg₁ hg₂ hrest) (hms.bind _)
    · exact (tooDeep_member key (hsinks _ List.mem_cons_self hv t ht) hg₁ hg₂ hrest).bind _

theorem tooDeep_memberList {ms : List (String × Json)}
    (hsinks : ∀ m ∈ ms, ¬ P m.2 → ∀ t, Spells m.2 t → Sinks item t) (hdeep : ¬ ∀ m ∈ ms, P m.2)
    {cs : List Char} (h : SpellsMembers ms cs) (rest : List Char) :
    TooDeep (memberList item (cs ++ rest)) := by
  cases ms with
  | nil => exact absurd (fun m hm => absurd hm List.not_mem_nil) hdeep
  | cons m ms =>
    obtain ⟨key, v⟩ := m
    obtain ⟨g, g₁, g₂, t, more, hg, hg₁, hg₂, ht, hmore, rfl⟩ := h
    have hrest := delimited_moreMembers hmore rest
    have hskip := skipGap_eq_self
      ((opens_quote key []).head (g₁ ++ ':' :: (g₂ ++ (t ++ (more ++ rest)))))
    rw [List.append_nil] at hskip
    unfold memberList
    simp only [List.append_assoc, List.cons_append]
    rw [skipGap_append hg, hskip]
    by_cases hv : P v
    · have hms := tooDeep_moreMembers hreads (fun m hm => hsinks m (List.mem_cons_of_mem _ hm))
        (fun hall => hdeep (List.forall_mem_cons.2 ⟨hv, hall⟩)) hmore rest (more ++ rest) (by
          have := length_lt_moreMembers hmore
          rw [List.length_append]
          omega)
      exact .of_bind_ok (member_of_reads key (hreads v hv t ht) hg₁ hg₂ hrest) (hms.bind _)
    · exact (tooDeep_member key (hsinks _ List.mem_cons_self hv t ht) hg₁ hg₂ hrest).bind _

end Lists

/-- A reader of values refuses a text if it does so with nothing in front. -/
theorem sinks_value {room : Nat} {cs : List Char} (hopens : Opens cs)
    (h : ∀ rest, TooDeep (value room (cs ++ rest))) : Sinks (value room) cs :=
  ⟨hopens, fun g rest hg _ => by
    rw [value_gap hg]
    exact h rest⟩

/-- Every spelling of a value that nests too deep is refused for its depth. -/
theorem sinks_of_spells {room large : Nat} {v : Json} {cs : List Char} (hv : Readable large v)
    (hdeep : ¬ Readable room v) (hs : Spells v cs) : Sinks (value room) cs := by
  -- on the room and not on the value, whose items and members have one less
  induction room using Nat.strongRecOn generalizing large v cs with
  | ind room ih =>
    cases v with
    | arr items =>
      rw [Spells.eq_def] at hs
      obtain ⟨body, rfl, hbody⟩ := hs
      refine sinks_value ⟨'[', _, rfl, by decide, by decide, by decide⟩ fun rest => ?_
      cases room with
      | zero => exact ⟨_, rfl, rfl⟩
      | succ room =>
        cases large with
        | zero => exact hv.elim
        | succ large =>
          refine (tooDeep_itemList (P := Readable room) (fun v hv t ht => reads_of_spells hv ht)
            (fun v hmem hnot t ht => ih room (Nat.lt_succ_self _) (hv v hmem) hnot ht) hdeep hbody
            rest).bind _
    | obj members =>
      rw [Spells.eq_def] at hs
      obtain ⟨body, rfl, hbody⟩ := hs
      refine sinks_value ⟨'{', _, rfl, by decide, by decide, by decide⟩ fun rest => ?_
      cases room with
      | zero => exact ⟨_, rfl, rfl⟩
      | succ room =>
        cases large with
        | zero => exact hv.elim
        | succ large =>
          refine (tooDeep_memberList (P := Readable room) (fun v hv t ht => reads_of_spells hv ht)
            (fun m hmem hnot t ht => ih room (Nat.lt_succ_self _) (hv.2 m hmem) hnot ht)
            (fun hall => hdeep ⟨hv.1, hall⟩) hbody rest).bind _
    | _ =>
      rw [Readable.eq_def] at hv hdeep
      exact absurd hv hdeep

section Parse

variable {v : Json} {large : Nat} (hv : Readable large v) (hdeep : ¬ Readable maxDepth v)
include hv hdeep

/-- A text that spells a value that nests too deep is refused for its depth. -/
theorem parseChars_tooDeep {cs g : List Char} (hs : Spells v cs) (hg : Gap g) :
    ∃ fault, parseChars (cs ++ g) = .error fault ∧ fault.flaw = .tooDeep := by
  have hdelimited : Delimited g := by
    simpa using delimited_append hg delimited_nil
  obtain ⟨stop, hstop, hflaw⟩ := (sinks_of_spells hv hdeep hs).fails [] g gap_nil hdelimited
  have hstop : value maxDepth (cs ++ g) = .error stop := hstop
  refine ⟨stop.inText (cs ++ g), ?_, hflaw⟩
  unfold parseChars
  rw [hstop]

theorem parse_line_tooDeep {m : Marks} (hm : m.Sound) :
    ∃ fault, parse (String.ofList (line m v)) = .error fault ∧ fault.flaw = .tooDeep := by
  unfold parse
  rw [String.toList_ofList, ← List.append_nil (line m v)]
  exact parseChars_tooDeep hv hdeep (spells_line hm v) gap_nil

/-- An encoded value that nests too deep is refused for its depth. -/
theorem parse_layoutText_tooDeep :
    ∃ fault, parse (layoutText v) = .error fault ∧ fault.flaw = .tooDeep := by
  unfold parse layoutText layout
  rw [String.toList_ofList]
  exact parseChars_tooDeep hv hdeep (spells_block 0 v) (gap_cons (by decide) gap_nil)

end Parse

end Beamline.Json

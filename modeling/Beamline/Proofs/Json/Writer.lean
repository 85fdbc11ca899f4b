import Beamline.Proofs.Json.Spelling

/-!
# What is written is read back

* `spells_line`, `spells_indented`, `spells_block` : each layout writes a spelling;
* `parse_line`, `parse_compactText`, `parse_indentedText`, `parse_layoutText` : a readable value is
  read back from each of them.
-/

namespace Beamline.Json

open Decimal Text

/-! ## Induction on values -/

section Induction

variable {P : Json → Prop} (null : P .null) (bool : ∀ b, P (.bool b)) (num : ∀ n, P (.num n))
  (str : ∀ s, P (.str s)) (arr : ∀ items, (∀ v ∈ items, P v) → P (.arr items))
  (obj : ∀ members, (∀ m ∈ members, P m.2) → P (.obj members))
include null bool num str arr obj

/-- Induction on a value, with the hypothesis for every item and every member. -/
@[elab_as_elim]
theorem induct (v : Json) : P v :=
  @Json.rec P (fun items => ∀ v ∈ items, P v) (fun members => ∀ m ∈ members, P m.2)
    (fun m => P m.2) null bool num str arr obj
    (fun _ h => absurd h List.not_mem_nil)
    (fun _ _ hv hvs => List.forall_mem_cons.2 ⟨hv, hvs⟩)
    (fun _ h => absurd h List.not_mem_nil)
    (fun _ _ hm hms => List.forall_mem_cons.2 ⟨hm, hms⟩)
    (fun _ _ hv => hv) v

end Induction

/-! ## Layouts are spellings -/

theorem gap_newline (level : Nat) : Gap (newline level) :=
  gap_cons (by decide) (gap_replicate _)

/-- Marks that hold their comma and colon, and blanks. -/
structure Marks.Sound (m : Marks) : Prop where
  comma : ∃ g, Gap g ∧ m.comma = ',' :: g
  colon : ∃ g, Gap g ∧ m.colon = ':' :: g

theorem Marks.tight_sound : Marks.tight.Sound :=
  ⟨⟨[], gap_nil, rfl⟩, ⟨[], gap_nil, rfl⟩⟩

theorem Marks.spaced_sound : Marks.spaced.Sound :=
  ⟨⟨[' '], gap_replicate 1, rfl⟩, ⟨[' '], gap_replicate 1, rfl⟩⟩

theorem lineItems_cons_cons (m : Marks) (v w : Json) (vs : List Json) :
    lineItems m (v :: w :: vs) = line m v ++ (m.comma ++ lineItems m (w :: vs)) := by
  rw [lineItems, List.append_assoc]
  exact List.cons_ne_nil w vs

theorem lineMembers_cons_cons (m : Marks) (x y : String × Json) (ms : List (String × Json)) :
    lineMembers m (x :: y :: ms) =
      quote x.1 ++ (m.colon ++ (line m x.2 ++ (m.comma ++ lineMembers m (y :: ms)))) := by
  rw [lineMembers]
  · simp only [List.append_assoc]
  · exact List.cons_ne_nil y ms

theorem blockMembers_cons_cons (level : Nat) (x y : String × Json) (ms : List (String × Json)) :
    blockMembers level (x :: y :: ms) = quote x.1 ++ ':' :: (' ' :: (block (level + 1) x.2 ++
      ',' :: (newline (level + 1) ++ blockMembers level (y :: ms)))) := by
  rw [blockMembers]
  · simp
  · exact List.cons_ne_nil y ms

section Line

variable {m : Marks} (hm : m.Sound)
include hm

theorem lineItems_cons (v : Json) (vs : List Json) (hvs : ∀ w ∈ vs, Spells w (line m w)) :
    ∃ more, SpellsMoreItems vs more ∧ lineItems m (v :: vs) = line m v ++ more := by
  induction vs generalizing v with
  | nil => exact ⟨[']'], ⟨[], gap_nil, rfl⟩, by rw [lineItems]⟩
  | cons w vs ih =>
    obtain ⟨hw, hvs⟩ := List.forall_mem_cons.1 hvs
    obtain ⟨more, hmore, heq⟩ := ih w hvs
    obtain ⟨g, hg, hcomma⟩ := hm.comma
    refine ⟨_, ⟨[], g, line m w, more, gap_nil, hg, hw, hmore, rfl⟩, ?_⟩
    rw [lineItems_cons_cons, heq, hcomma]
    simp

theorem lineMembers_cons (key : String) (v : Json) (ms : List (String × Json))
    (hms : ∀ w ∈ ms, Spells w.2 (line m w.2)) :
    ∃ more, SpellsMoreMembers ms more ∧
      lineMembers m ((key, v) :: ms) = quote key ++ (m.colon ++ (line m v ++ more)) := by
  induction ms generalizing key v with
  | nil => exact ⟨['}'], ⟨[], gap_nil, rfl⟩, by rw [lineMembers]; simp⟩
  | cons w ms ih =>
    obtain ⟨key', w⟩ := w
    obtain ⟨hw, hms⟩ := List.forall_mem_cons.1 hms
    obtain ⟨more, hmore, heq⟩ := ih key' w hms
    obtain ⟨g, hg, hcomma⟩ := hm.comma
    obtain ⟨g', hg', hcolon⟩ := hm.colon
    refine ⟨_, ⟨[], g, [], g', line m w, more, gap_nil, hg, gap_nil, hg', hw, hmore, rfl⟩, ?_⟩
    rw [lineMembers_cons_cons, heq, hcomma, hcolon]
    simp

theorem spells_line (v : Json) : Spells v (line m v) := by
  induction v using induct with
  | null => rw [Spells.eq_def, line]
  | bool b => rw [Spells.eq_def, line]
  | num n => rw [Spells.eq_def, line]
  | str s => rw [Spells.eq_def, line]
  | arr items ih =>
    rw [Spells.eq_def, line]
    refine ⟨_, rfl, ?_⟩
    cases items with
    | nil => exact ⟨[], gap_nil, by rw [lineItems]; rfl⟩
    | cons v vs =>
      obtain ⟨hv, hvs⟩ := List.forall_mem_cons.1 ih
      obtain ⟨more, hmore, heq⟩ := lineItems_cons hm v vs hvs
      exact ⟨[], line m v, more, gap_nil, hv, hmore, heq⟩
  | obj members ih =>
    rw [Spells.eq_def, line]
    refine ⟨_, rfl, ?_⟩
    rcases members with _ | ⟨⟨key, v⟩, ms⟩
    · exact ⟨[], gap_nil, by rw [lineMembers]; rfl⟩
    · obtain ⟨hv, hms⟩ := List.forall_mem_cons.1 ih
      obtain ⟨more, hmore, heq⟩ := lineMembers_cons hm key v ms hms
      obtain ⟨g, hg, hcolon⟩ := hm.colon
      refine ⟨[], [], g, line m v, more, gap_nil, gap_nil, hg, hv, hmore, ?_⟩
      rw [heq, hcolon]
      simp

end Line

theorem blockMembers_cons (level : Nat) (key : String) (v : Json) (ms : List (String × Json))
    (hms : ∀ w ∈ ms, Spells w.2 (block (level + 1) w.2)) :
    ∃ more, SpellsMoreMembers ms more ∧ blockMembers level ((key, v) :: ms) =
      quote key ++ ':' :: (' ' :: (block (level + 1) v ++ more)) := by
  induction ms generalizing key v with
  | nil =>
    refine ⟨newline level ++ ['}'], ⟨_, gap_newline level, rfl⟩, ?_⟩
    rw [blockMembers]
    simp
  | cons w ms ih =>
    obtain ⟨key', w⟩ := w
    obtain ⟨hw, hms⟩ := List.forall_mem_cons.1 hms
    obtain ⟨more, hmore, heq⟩ := ih key' w hms
    refine ⟨_, ⟨[], newline (level + 1), [], [' '], block (level + 1) w, more, gap_nil,
      gap_newline _, gap_nil, gap_replicate 1, hw, hmore, rfl⟩, ?_⟩
    rw [blockMembers_cons_cons, heq]
    simp

/-- The layout of encoded documents is a spelling. -/
theorem spells_block (level : Nat) (v : Json) : Spells v (block level v) := by
  induction v using induct generalizing level with
  | null => rw [Spells.eq_def, block]
  | bool b => rw [Spells.eq_def, block]
  | num n => rw [Spells.eq_def, block]
  | str s => rw [Spells.eq_def, block]
  | arr items _ =>
    rw [block]
    exact spells_line Marks.spaced_sound _
  | obj members ih =>
    rcases members with _ | ⟨⟨key, v⟩, ms⟩
    · rw [Spells.eq_def, block]
      exact ⟨_, rfl, [], gap_nil, rfl⟩
    · obtain ⟨hv, hms⟩ := List.forall_mem_cons.1 ih
      obtain ⟨more, hmore, heq⟩ := blockMembers_cons level key v ms fun w hw => hms w hw _
      rw [Spells.eq_def, block, heq]
      exact ⟨_, rfl, newline (level + 1), [], [' '], _, more, gap_newline _, gap_nil,
        gap_replicate 1, hv (level + 1), hmore, rfl⟩

theorem indentedItems_cons (level : Nat) (v : Json) (vs : List Json)
    (hvs : ∀ w ∈ vs, Spells w (indented (level + 1) w)) :
    ∃ more, SpellsMoreItems vs more ∧
      indentedItems level (v :: vs) = indented (level + 1) v ++ more := by
  induction vs generalizing v with
  | nil => exact ⟨newline level ++ [']'], ⟨_, gap_newline level, rfl⟩, by rw [indentedItems]; simp⟩
  | cons w vs ih =>
    obtain ⟨hw, hvs⟩ := List.forall_mem_cons.1 hvs
    obtain ⟨more, hmore, heq⟩ := ih w hvs
    refine ⟨_, ⟨[], newline (level + 1), indented (level + 1) w, more, gap_nil, gap_newline _, hw,
      hmore, rfl⟩, ?_⟩
    rw [indentedItems, heq]
    · simp
    · simp

theorem indentedMembers_cons (level : Nat) (key : String) (v : Json) (ms : List (String × Json))
    (hms : ∀ w ∈ ms, Spells w.2 (indented (level + 1) w.2)) :
    ∃ more, SpellsMoreMembers ms more ∧ indentedMembers level ((key, v) :: ms) =
      quote key ++ ':' :: (' ' :: (indented (level + 1) v ++ more)) := by
  induction ms generalizing key v with
  | nil =>
    refine ⟨newline level ++ ['}'], ⟨_, gap_newline level, rfl⟩, ?_⟩
    rw [indentedMembers]
    simp
  | cons w ms ih =>
    obtain ⟨key', w⟩ := w
    obtain ⟨hw, hms⟩ := List.forall_mem_cons.1 hms
    obtain ⟨more, hmore, heq⟩ := ih key' w hms
    refine ⟨_, ⟨[], newline (level + 1), [], [' '], indented (level + 1) w, more, gap_nil,
      gap_newline _, gap_nil, gap_replicate 1, hw, hmore, rfl⟩, ?_⟩
    rw [indentedMembers, heq]
    · simp
    · simp

theorem spells_indented (level : Nat) (v : Json) : Spells v (indented level v) := by
  induction v using induct generalizing level with
  | null => rw [Spells.eq_def, indented]
  | bool b => rw [Spells.eq_def, indented]
  | num n => rw [Spells.eq_def, indented]
  | str s => rw [Spells.eq_def, indented]
  | arr items ih =>
    cases items with
    | nil =>
      rw [Spells.eq_def, indented]
      exact ⟨_, rfl, [], gap_nil, rfl⟩
    | cons v vs =>
      obtain ⟨hv, hvs⟩ := List.forall_mem_cons.1 ih
      obtain ⟨more, hmore, heq⟩ := indentedItems_cons level v vs fun w hw => hvs w hw _
      rw [Spells.eq_def, indented, heq]
      exact ⟨_, rfl, newline (level + 1), _, more, gap_newline _, hv (level + 1), hmore, rfl⟩
  | obj members ih =>
    rcases members with _ | ⟨⟨key, v⟩, ms⟩
    · rw [Spells.eq_def, indented]
      exact ⟨_, rfl, [], gap_nil, rfl⟩
    · obtain ⟨hv, hms⟩ := List.forall_mem_cons.1 ih
      obtain ⟨more, hmore, heq⟩ := indentedMembers_cons level key v ms fun w hw => hms w hw _
      rw [Spells.eq_def, indented, heq]
      exact ⟨_, rfl, newline (level + 1), [], [' '], _, more, gap_newline _, gap_nil,
        gap_replicate 1, hv (level + 1), hmore, rfl⟩

/-! ## Reading back -/

variable {v : Json} (hv : Readable maxDepth v)
include hv

theorem parse_line {m : Marks} (hm : m.Sound) : parse (String.ofList (line m v)) = .ok v := by
  unfold parse
  rw [String.toList_ofList, ← List.append_nil (line _ v)]
  exact parseChars_of_spells hv (spells_line hm v) gap_nil

theorem parse_compactText : parse (compactText v) = .ok v :=
  parse_line hv Marks.tight_sound

theorem parse_indentedText : parse (indentedText v) = .ok v := by
  unfold parse indentedText
  rw [String.toList_ofList, ← List.append_nil (indented 0 v)]
  exact parseChars_of_spells hv (spells_indented 0 v) gap_nil

/-- An encoded value is read back. -/
theorem parse_layoutText : parse (layoutText v) = .ok v := by
  unfold parse layoutText layout
  rw [String.toList_ofList]
  exact parseChars_of_spells hv (spells_block 0 v) (gap_cons (by decide) gap_nil)

end Beamline.Json

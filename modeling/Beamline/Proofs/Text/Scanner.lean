import Beamline.Proofs.Text.Gap
import Beamline.Text.Scanner
import Mathlib.Algebra.BigOperators.Group.List.Basic
import Mathlib.Data.List.Forall2

/-!
# What scanners read

* `Solid` : a text that does not start with a gap;
* `spaced_eq_some`, `mark_append`, `mark_eq_none` : scanners that skip gaps, in front of and behind
  solid texts;
* `many_flatMap`, `many_flatMap_self` : a scanner reads the texts that stand one after the other.
-/

namespace Beamline.Text

/-- A text that does not start with a gap. -/
def Solid (cs : List Char) : Prop :=
  ∀ c ∈ cs.head?, isGap c = false

theorem solid_nil : Solid [] := by
  intro c hc
  cases hc

theorem solid_cons {c : Char} (hc : isGap c = false) (cs : List Char) : Solid (c :: cs) := by
  rintro _ ⟨⟩
  exact hc

theorem Solid.append {cs : List Char} (h : Solid cs) (hne : cs ≠ []) (rest : List Char) :
    Solid (cs ++ rest) := by
  obtain ⟨c, cs, rfl⟩ := List.exists_cons_of_ne_nil hne
  exact solid_cons (h c rfl) _

section Lengths

variable {α β : Type} (text : β → List α) {bs : List β} {b : β}

theorem length_le_length_flatMap (hb : b ∈ bs) : (text b).length ≤ (bs.flatMap text).length :=
  (List.sublist_flatten_of_mem (List.mem_map_of_mem hb)).length_le

/-- There are no more texts than characters in them, if none is empty. -/
theorem length_le_of_pos (h : ∀ b ∈ bs, 0 < (text b).length) :
    bs.length ≤ (bs.flatMap text).length := by
  rw [List.length_flatMap, ← List.length_map fun b => (text b).length]
  exact List.length_le_sum_of_one_le _ (List.forall_mem_map.2 h)

end Lengths

namespace Scanner

variable {α β : Type} {p : Scanner α} {cs rest : List Char} {a : α}

theorem spaced_eq_some (hcs : Solid cs) (h : p cs = some (a, rest)) (hrest : Solid rest) :
    spaced p cs = some (a, rest) := by
  unfold spaced
  rw [skipGap_eq_self hcs, h, Option.map_some]
  dsimp only
  rw [skipGap_eq_self hrest]

theorem spaced_eq_none (hcs : Solid cs) (h : p cs = none) : spaced p cs = none := by
  unfold spaced
  rw [skipGap_eq_self hcs, h, Option.map_none]

theorem spaced_append {g : List Char} (hg : Gap g) (cs : List Char) :
    spaced p (g ++ cs) = spaced p cs := by
  unfold spaced
  rw [skipGap_append hg]

theorem spaced_blank (cs : List Char) : spaced p (' ' :: cs) = spaced p cs :=
  spaced_append (gap_cons (by decide) gap_nil) cs

theorem mark_append {c : Char} (hc : isGap c = false) {g : List Char} (hg : Gap g)
    (hrest : Solid rest) : mark c (c :: (g ++ rest)) = some ((), rest) := by
  unfold mark spaced
  rw [skipGap_eq_self (solid_cons hc _), char, if_pos rfl, Option.map_some]
  dsimp only
  rw [skipGap_append hg, skipGap_eq_self hrest]

theorem mark_blank {c : Char} (hc : isGap c = false) (hrest : Solid rest) :
    mark c (c :: ' ' :: rest) = some ((), rest) :=
  mark_append hc (gap_cons (by decide) gap_nil) hrest

theorem mark_cons {c : Char} (hc : isGap c = false) (hrest : Solid rest) :
    mark c (c :: rest) = some ((), rest) :=
  mark_append hc gap_nil hrest

theorem char_eq_none {c : Char} (h : ∀ d ∈ cs.head?, d ≠ c) : char c cs = none := by
  cases cs with
  | nil => rfl
  | cons d cs => rw [char, if_neg (h d rfl)]

theorem mark_eq_none {c : Char} (hcs : Solid cs) (h : ∀ d ∈ cs.head?, d ≠ c) :
    mark c cs = none :=
  spaced_eq_none hcs (char_eq_none h)

theorem char_cons (c : Char) (cs : List Char) : char c (c :: cs) = some ((), cs) :=
  if_pos rfl

theorem after_eq {q : Scanner β} {b : β} (h : q cs = some (b, rest)) : after q p cs = p rest := by
  simp only [after, h, Option.bind_eq_bind, Option.bind_some]

theorem after_eq_none {q : Scanner β} (h : q cs = none) : after q p cs = none := by
  simp only [after, h, Option.bind_eq_bind, Option.bind_none]

theorem many_eq_nil (h : p cs = none) (fuel : Nat) : many p fuel cs = ([], cs) := by
  cases fuel with
  | zero => rfl
  | succ fuel => simp only [many, h]

/-- Texts that a scanner reads in front of each other are read one after the other. -/
theorem many_flatMap {text : β → List Char} {R : β → α → Prop} {Follows : List Char → Prop}
    {bs : List β} (hread : ∀ b ∈ bs, ∀ rest, Follows rest →
      ∃ a, p (text b ++ rest) = some (a, rest) ∧ R b a)
    (hfollow : ∀ b ∈ bs, ∀ rest, Follows (text b ++ rest)) (hrest : Follows rest)
    (hend : p rest = none) : ∀ fuel, bs.length ≤ fuel →
      ∃ as, many p fuel (bs.flatMap text ++ rest) = (as, rest) ∧ List.Forall₂ R bs as := by
  induction bs with
  | nil => exact fun fuel _ => ⟨[], many_eq_nil hend fuel, .nil⟩
  | cons b bs ih =>
    intro fuel hfuel
    obtain ⟨fuel, rfl⟩ : ∃ n, fuel = n + 1 := ⟨fuel - 1, by rw [List.length_cons] at hfuel; omega⟩
    have hbehind : Follows (bs.flatMap text ++ rest) := by
      cases bs with
      | nil => exact hrest
      | cons c bs =>
        rw [List.flatMap_cons, List.append_assoc]
        exact hfollow c (by simp) _
    obtain ⟨a, ha, hR⟩ := hread b (by simp) _ hbehind
    obtain ⟨as, has, hall⟩ := ih (fun c hc => hread c (by simp [hc]))
      (fun c hc => hfollow c (by simp [hc])) fuel (by simpa using hfuel)
    refine ⟨a :: as, ?_, .cons hR hall⟩
    rw [List.flatMap_cons, List.append_assoc, many, ha]
    dsimp only
    rw [has]

/-- What a scanner reads back one by one, it reads back one after the other. -/
theorem many_flatMap_self {text : α → List Char} {Follows : List Char → Prop} {as : List α}
    (hread : ∀ a ∈ as, ∀ rest, Follows rest → p (text a ++ rest) = some (a, rest))
    (hfollow : ∀ a ∈ as, ∀ rest, Follows (text a ++ rest)) (hrest : Follows rest)
    (hend : p rest = none) {fuel : Nat} (hfuel : as.length ≤ fuel) :
    many p fuel (as.flatMap text ++ rest) = (as, rest) := by
  obtain ⟨as', has, hall⟩ := many_flatMap (R := Eq)
    (fun a ha rest hrest => ⟨a, hread a ha rest hrest, rfl⟩) hfollow hrest hend fuel hfuel
  rw [List.forall₂_eq_eq_eq] at hall
  rw [has, hall]

end Scanner

end Beamline.Text

import Beamline.Text.Blank
import Mathlib.Data.List.Induction
import Mathlib.Data.List.TakeDrop

/-!
# Gaps and the runs of characters around them

* `ne_of_test`, `isGap_eq_false` : characters told apart by a test;
* `Gap` : nothing but spaces, tabs, line feeds and carriage returns;
* `skipGap_append` : a gap is skipped as a whole before anything else;
* `trim_eq_self` : a text with no blanks at its ends stays as it is;
* `trimEnd_append`, `trim_trimEnd` : the blanks at the end of a text;
* `takeWhile_append_stop`, `dropWhile_append_stop` : a run ends where its characters end.
-/

namespace Beamline.Text

/-- Characters that a test tells apart are different. -/
theorem ne_of_test {p : Char → Bool} {c d : Char} (hc : p c) (hd : p d = false) : c ≠ d := by
  rintro rfl
  rw [hc] at hd
  cases hd

/-- What no blank between tokens passes is passed by other characters only. -/
theorem isGap_eq_false {p : Char → Bool} (hp : ∀ d ∈ [' ', '\t', '\n', '\r'], p d = false)
    {c : Char} (hc : p c) : isGap c = false := by
  have hne : ∀ d ∈ [' ', '\t', '\n', '\r'], c ≠ d := fun d hd => ne_of_test hc (hp d hd)
  simpa [isGap, and_assoc] using hne

/-- Characters that may stand between tokens. -/
def Gap (cs : List Char) : Prop := ∀ c ∈ cs, isGap c

theorem gap_nil : Gap [] := by
  intro c hc
  cases hc

theorem gap_cons {c : Char} {cs : List Char} (hc : isGap c) (h : Gap cs) : Gap (c :: cs) := by
  intro d hd
  rcases List.mem_cons.1 hd with rfl | hd
  · exact hc
  · exact h d hd

theorem gap_replicate (n : Nat) : Gap (List.replicate n ' ') := by
  intro c hc
  rw [(List.mem_replicate.1 hc).2]
  decide

theorem skipGap_eq_self {cs : List Char} (h : ∀ c ∈ cs.head?, isGap c = false) :
    skipGap cs = cs := by
  cases cs with
  | nil => rfl
  | cons c cs =>
    unfold skipGap
    rw [List.dropWhile_cons_of_neg (by simp [h c rfl])]

theorem skipGap_append {g : List Char} (hg : Gap g) (cs : List Char) :
    skipGap (g ++ cs) = skipGap cs :=
  List.dropWhile_append_of_pos hg

theorem trim_eq_self {cs : List Char} (hhead : ∀ c ∈ cs.head?, isBlank c = false)
    (hlast : ∀ c ∈ cs.getLast?, isBlank c = false) : trim cs = cs := by
  have hdrop : ∀ ds : List Char, (∀ c ∈ ds.head?, isBlank c = false) →
      ds.dropWhile isBlank = ds := by
    intro ds hds
    cases ds with
    | nil => rfl
    | cons d ds => rw [List.dropWhile_cons_of_neg (by simp [hds d rfl])]
  unfold trim trimEnd trimStart
  rw [hdrop cs hhead, hdrop cs.reverse (by rwa [List.head?_reverse]), List.reverse_reverse]

theorem trim_cons_blank {c : Char} (hc : isBlank c) (cs : List Char) :
    trim (c :: cs) = trim cs := by
  rw [trim, trimStart, List.dropWhile_cons_of_pos hc, trim, trimStart]

theorem trim_concat_blank {c : Char} (hc : isBlank c) (cs : List Char) :
    trim (cs ++ [c]) = trim cs := by
  unfold trim trimStart
  rw [List.dropWhile_append]
  split
  · rename_i h
    rw [List.isEmpty_iff.1 h, List.dropWhile_cons_of_pos hc, List.dropWhile_nil]
  · rw [trimEnd, List.reverse_concat, List.dropWhile_cons_of_pos hc, trimEnd]

theorem trimEnd_concat_blank {c : Char} (hc : isBlank c) (cs : List Char) :
    trimEnd (cs ++ [c]) = trimEnd cs := by
  rw [trimEnd, List.reverse_concat, List.dropWhile_cons_of_pos hc, trimEnd]

theorem trimEnd_concat {c : Char} (hc : isBlank c = false) (cs : List Char) :
    trimEnd (cs ++ [c]) = cs ++ [c] := by
  rw [trimEnd, List.reverse_concat, List.dropWhile_cons_of_neg (by simp [hc]), List.reverse_cons,
    List.reverse_reverse]

/-- The blanks at the end of a text stand behind its last character that is none. -/
theorem trimEnd_append {c : Char} (hc : isBlank c = false) (cs ds : List Char) :
    trimEnd (cs ++ c :: ds) = cs ++ c :: trimEnd ds := by
  induction ds using List.reverseRecOn with
  | nil => exact trimEnd_concat hc cs
  | append_singleton ds d ih =>
    rw [← List.cons_append, ← List.append_assoc]
    by_cases hd : isBlank d
    · rw [trimEnd_concat_blank hd, trimEnd_concat_blank hd, ih]
    · rw [Bool.not_eq_true] at hd
      rw [trimEnd_concat hd, trimEnd_concat hd, List.append_assoc, List.cons_append]

theorem trim_trimEnd (cs : List Char) : trim (trimEnd cs) = trim cs := by
  induction cs using List.reverseRecOn with
  | nil => rfl
  | append_singleton cs c ih =>
    by_cases hc : isBlank c
    · rw [trimEnd_concat_blank hc, trim_concat_blank hc, ih]
    · rw [trimEnd_concat (by simpa using hc)]

section Runs

variable {α : Type} {p : α → Bool} {xs ys : List α}

theorem takeWhile_append_stop (hxs : ∀ x ∈ xs, p x) (hys : ∀ y ∈ ys.head?, p y = false) :
    (xs ++ ys).takeWhile p = xs := by
  rw [List.takeWhile_append_of_pos hxs]
  cases ys with
  | nil => simp
  | cons y ys => rw [List.takeWhile_cons_of_neg (by simp [hys y rfl]), List.append_nil]

theorem dropWhile_append_stop (hxs : ∀ x ∈ xs, p x) (hys : ∀ y ∈ ys.head?, p y = false) :
    (xs ++ ys).dropWhile p = ys := by
  rw [List.dropWhile_append_of_pos hxs]
  cases ys with
  | nil => rfl
  | cons y ys => rw [List.dropWhile_cons_of_neg (by simp [hys y rfl])]

end Runs

end Beamline.Text

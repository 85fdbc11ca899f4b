import Beamline.Deck.Clause
import Beamline.Deck.Word
import Beamline.Proofs.Decimal.Numeral
import Beamline.Proofs.Json.Scalar
import Beamline.Proofs.Text.Scanner

/-!
# Words that are read as written

* `Deck.isPlainName` : names that a deck writes and reads without a change;
* `Word.name_append` : such a name is read up to the first character that no name has;
* `Word.magnitude_text` : so is a numeral without an exponent;
* `Word.quoted_append` : and a text in quotation marks that has none inside.
-/

namespace Beamline.Deck

open Text Text.Scanner
open Decimal (Numeral)

/-! ## Names -/

def isPlainStart (c : Char) : Bool :=
  c.isUpper || c == '_'

def isPlainRest (c : Char) : Bool :=
  c.isUpper || c.isDigit || c == '_' || c == '.' || c == '$'

/-- The names that a deck writes and reads without a change. They start with a capital letter or
`_`, and go on with capital letters, digits, `_`, `.` and `$`. -/
def isPlainName (s : String) : Bool :=
  match s.toList with
  | [] => false
  | c :: cs => isPlainStart c && cs.all isPlainRest

theorem isPlainName_iff {s : String} : isPlainName s ↔
    ∃ c cs, s.toList = c :: cs ∧ isPlainStart c ∧ ∀ x ∈ cs, isPlainRest x := by
  unfold isPlainName
  cases s.toList with
  | nil => simp
  | cons c cs => simp

theorem isPlainRest_of_isPlainStart {c : Char} (h : isPlainStart c) : isPlainRest c := by
  unfold isPlainStart at h
  unfold isPlainRest
  simp only [Bool.or_eq_true] at h ⊢
  exact h.elim (fun h => by simp [h]) fun h => by simp [h]

theorem isPlainRest_of_mem {s : String} (h : isPlainName s) : ∀ c ∈ s.toList, isPlainRest c := by
  obtain ⟨c, cs, hs, hc, hcs⟩ := isPlainName_iff.1 h
  rw [hs]
  exact List.forall_mem_cons.2 ⟨isPlainRest_of_isPlainStart hc, hcs⟩

/-- The characters of plain names lie between `$` and `_`. -/
theorem toNat_of_isPlainRest {c : Char} (h : isPlainRest c) :
    '$'.toNat ≤ c.toNat ∧ c.toNat ≤ '_'.toNat := by
  simp only [isPlainRest, Char.isUpper, Char.isDigit, Bool.or_eq_true, decide_eq_true_eq,
    Bool.and_eq_true, beq_iff_eq, ge_iff_le, UInt32.le_iff_toNat_le] at h
  rcases h with (((⟨hlow, hhigh⟩ | ⟨hlow, hhigh⟩) | rfl) | rfl) | rfl
  · exact ⟨Nat.le_trans (by decide) hlow, Nat.le_trans hhigh (by decide)⟩
  · exact ⟨Nat.le_trans (by decide) hlow, Nat.le_trans hhigh (by decide)⟩
  · decide
  · decide
  · decide

theorem not_isDigit_of_isPlainStart {c : Char} (h : isPlainStart c) : c.isDigit = false := by
  rw [← Bool.not_eq_true]
  intro hdigit
  simp only [isPlainStart, Char.isUpper, Char.isDigit, Bool.or_eq_true, Bool.and_eq_true,
    decide_eq_true_eq, beq_iff_eq, ge_iff_le, UInt32.le_iff_toNat_le] at h hdigit
  rcases h with h | rfl
  · exact absurd (Nat.le_trans h.1 hdigit.2) (by decide)
  · exact absurd hdigit.2 (by decide)

theorem toUpper_of_isPlainRest {c : Char} (h : isPlainRest c) : c.toUpper = c := by
  unfold Char.toUpper
  rw [dif_neg]
  rintro ⟨hlow, -⟩
  have hlow : 'a'.toNat ≤ c.toNat := UInt32.le_iff_toNat_le.1 hlow
  exact absurd (Nat.le_trans hlow (toNat_of_isPlainRest h).2) (by decide)

theorem not_isBlank_of_isPlainRest {c : Char} (h : isPlainRest c) : isBlank c = false := by
  obtain ⟨hlow, hhigh⟩ := toNat_of_isPlainRest h
  have hlow : 0x24 ≤ c.toNat := hlow
  have hhigh : c.toNat ≤ 0x5f := hhigh
  rw [← Bool.not_eq_true, isBlank]
  simp only [Bool.or_eq_true, Bool.and_eq_true, decide_eq_true_eq, beq_iff_eq]
  omega

theorem not_isQuote_of_isPlainRest {c : Char} (h : isPlainRest c) : isQuote c = false := by
  have hdouble : c ≠ '"' := ne_of_test h (by decide)
  have hsingle : c ≠ '\'' := ne_of_test h (by decide)
  simp [isQuote, hdouble, hsingle]

theorem upper_of_isPlainName {s : String} (h : isPlainName s) : upper s.toList = s.toList := by
  unfold upper
  conv_rhs => rw [← List.map_id s.toList]
  exact List.map_congr_left fun c hc => toUpper_of_isPlainRest (isPlainRest_of_mem h c hc)

theorem isNameStart_of_isPlainStart {c : Char} (h : isPlainStart c) : Word.isNameStart c := by
  unfold isPlainStart at h
  unfold Word.isNameStart Char.isAlpha
  simp only [Bool.or_eq_true] at h ⊢
  exact h.imp_left .inl

theorem isNameRest_of_isPlainRest {c : Char} (h : isPlainRest c) : Word.isNameRest c := by
  unfold isPlainRest at h
  unfold Word.isNameRest Char.isAlphanum Char.isAlpha
  simp only [Bool.or_eq_true] at h ⊢
  rcases h with (((h | h) | h) | h) | h <;> simp [h]

namespace Word

/-- A text that no name goes on into. -/
def Ends (rest : List Char) : Prop :=
  ∀ c ∈ rest.head?, isNameRest c = false

theorem name_append {s : String} (hs : isPlainName s) {rest : List Char} (hrest : Ends rest) :
    name (s.toList ++ rest) = some (s, rest) := by
  have hupper := upper_of_isPlainName hs
  obtain ⟨c, cs, heq, hc, hcs⟩ := isPlainName_iff.1 hs
  have hnames : ∀ x ∈ cs, isNameRest x := fun x hx => isNameRest_of_isPlainRest (hcs x hx)
  rw [heq] at hupper ⊢
  rw [List.cons_append, name, if_pos (isNameStart_of_isPlainStart hc),
    takeWhile_append_stop hnames hrest, dropWhile_append_stop hnames hrest, hupper, ← heq,
    String.ofList_toList]

theorem name_eq_none {c : Char} (hc : isNameStart c = false) (cs : List Char) :
    name (c :: cs) = none := by
  rw [name, if_neg (by simp [hc])]

/-! ## Numbers -/

theorem digits_append {ds rest : List Char} (hne : ds ≠ []) (hds : ∀ c ∈ ds, c.isDigit)
    (hrest : ∀ c ∈ rest.head?, c.isDigit = false) : digits (ds ++ rest) = some (ds, rest) := by
  unfold digits
  dsimp only
  rw [takeWhile_append_stop hds hrest, dropWhile_append_stop hds hrest,
    if_neg (by rwa [List.isEmpty_iff])]

theorem mantissa_text {n : Numeral} (hn : n.Good) {rest : List Char} (hrest : Json.Delimited rest) :
    mantissa (n.whole ++ (if n.fraction = [] then [] else '.' :: n.fraction) ++ rest) =
      some ((n.whole, n.fraction), rest) := by
  have hdigit : ∀ c ∈ rest.head?, c.isDigit = false := fun c hc => (hrest c hc).1
  unfold mantissa
  by_cases hf : n.fraction = []
  · rw [if_pos hf, List.append_nil, digits_append hn.whole_ne_nil hn.whole_digits hdigit]
    split
    · rename_i heq
      obtain ⟨-, rfl⟩ := Prod.mk.inj (Option.some.inj heq)
      exact absurd rfl (hrest '.' rfl).2.1
    · rename_i heq
      obtain ⟨rfl, rfl⟩ := Prod.mk.inj (Option.some.inj heq)
      rw [hf]
    · rename_i heq
      cases heq
  · rw [if_neg hf, List.append_assoc, List.cons_append, digits_append hn.whole_ne_nil
      hn.whole_digits (by rintro _ ⟨⟩; decide)]
    show some ((n.whole, (n.fraction ++ rest).takeWhile Char.isDigit),
      (n.fraction ++ rest).dropWhile Char.isDigit) = _
    rw [takeWhile_append_stop hn.fraction_digits hdigit,
      dropWhile_append_stop hn.fraction_digits hdigit]

/-- A numeral without an exponent is read as the number that it spells. -/
theorem magnitude_text {n : Numeral} (hn : n.Good) (he : n.exponent = none) {rest : List Char}
    (hrest : Json.Delimited rest) :
    magnitude (n.text ++ rest) = some (n.decimal.toFloat, rest) := by
  have hexponent : exponent rest = none := by
    cases rest with
    | nil => rfl
    | cons c rest =>
      obtain ⟨-, -, hlower, hupper⟩ := hrest c rfl
      unfold exponent
      dsimp only
      rw [if_neg (by simp [hlower, hupper])]
  unfold magnitude Numeral.text Numeral.decimal
  rw [he, Option.map_none, Option.getD_none, List.append_nil, mantissa_text hn hrest]
  simp [opt, hexponent]

theorem magnitude_eq_none {c : Char} (hdigit : c.isDigit = false) (hpoint : c ≠ '.')
    (cs : List Char) : magnitude (c :: cs) = none := by
  have hdigits : digits (c :: cs) = none := by
    simp [digits, hdigit]
  have hmantissa : mantissa (c :: cs) = none := by
    unfold mantissa
    rw [hdigits]
    dsimp only
    split
    · rename_i heq
      exact absurd (List.cons.inj heq).1 hpoint
    · rfl
  simp [magnitude, hmantissa]

/-! ## Quoted texts -/

theorem quoted_append {s : List Char} (hs : '"' ∉ s) (rest : List Char) :
    quoted ('"' :: (s ++ '"' :: rest)) = some (String.ofList s, rest) := by
  have hall : ∀ c ∈ s, (c != '"') = true := by
    intro c hc
    rw [bne_iff_ne]
    rintro rfl
    exact hs hc
  have hstop : ∀ c ∈ ('"' :: rest).head?, (c != '"') = false := by
    rintro _ ⟨⟩
    rfl
  have hdouble : quotedBy '"' ('"' :: (s ++ '"' :: rest)) = some (String.ofList s, rest) := by
    rw [quotedBy, if_pos rfl, dropWhile_append_stop hall hstop, takeWhile_append_stop hall hstop]
  rw [quoted, orElse, hdouble]

theorem quoted_eq_none {c : Char} (hc : isQuote c = false) (cs : List Char) :
    quoted (c :: cs) = none := by
  simp only [isQuote, Bool.or_eq_false_iff, beq_eq_false_iff_ne] at hc
  rw [quoted, orElse, quotedBy, if_neg hc.1, quotedBy, if_neg hc.2]

end Word

end Beamline.Deck

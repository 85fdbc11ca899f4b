import Beamline.Json.Scalar
import Beamline.Json.Writer
import Beamline.Proofs.Decimal.Shortest
import Beamline.Proofs.Text.Gap

/-!
# Written scalars are read back

* `Number.Legible` : the numbers that a text can spell;
* `number_text` : what `number` makes of the digits of a numeral, `readNumber_numberText` : a
  written number is read back;
* `characters_escaped`, `string_quote` : a quoted string is read back;
* `number_legible` : what `number` reads is legible.

A reader stops where the text it was given goes on with something else. `Delimited` says that the
text behind a number is not taken for a part of it.
-/

namespace Beamline

/-- The numbers that a text can spell: 64-bit whole numbers and finite floats. -/
def Number.Legible : Number → Prop
  | .whole n => -2 ^ 63 ≤ n ∧ n < 2 ^ 64
  | .float x => x.isFinite

/-- A legible number has a finite value. -/
theorem Number.isFinite_toFloat {n : Number} (h : n.Legible) : n.toFloat.isFinite := by
  cases n with
  | float x => exact h
  | whole n =>
    have hfinite : (Decimal.toFloat ⟨n.natAbs, 0⟩).isFinite := by
      apply Decimal.isFinite_toFloat
      have hn : n.natAbs < 2 ^ 64 := by
        obtain ⟨hlow, hhigh⟩ := h
        omega
      have hcast : (n.natAbs : ℚ) < 2 ^ 64 := by exact_mod_cast hn
      unfold Decimal.value
      simp only [zpow_zero, mul_one]
      refine hcast.trans ?_
      rw [← zpow_natCast]
      exact zpow_lt_zpow_right₀ (by norm_num) (by norm_num)
    rw [toFloat]
    split
    · rw [Decimal.isFinite_neg]
      exact hfinite
    · exact hfinite

namespace Json

open Decimal Text

/-! ## Numbers -/

/-- A text that no number goes on into. -/
def Delimited (rest : List Char) : Prop :=
  ∀ c ∈ rest.head?, c.isDigit = false ∧ c ≠ '.' ∧ c ≠ 'e' ∧ c ≠ 'E'

theorem delimited_nil : Delimited [] := by
  intro c hc
  cases hc

theorem digits_append {ds rest : List Char} (hds : ∀ c ∈ ds, c.isDigit)
    (hrest : ∀ c ∈ rest.head?, c.isDigit = false) : digits (ds ++ rest) = (ds, rest) := by
  unfold digits
  rw [takeWhile_append_stop hds hrest, dropWhile_append_stop hds hrest]

theorem natOfDigits_take_le (ds : List Char) (n : Nat) :
    natOfDigits (ds.take n) ≤ natOfDigits ds := by
  conv => rhs; rw [← List.take_append_drop n ds, natOfDigits_append]
  have : 0 < 10 ^ (ds.drop n).length := by positivity
  nlinarith

/-- An exponent is taken at its word unless it is too large. -/
theorem overflow?_eq_none {ds : List Char} (h : natOfDigits ds ≤ maxExponent) :
    overflow? ds = none := by
  unfold overflow?
  rw [List.findSome?_eq_none_iff]
  intro n _
  rw [if_neg]
  have := natOfDigits_take_le ds (n + 1)
  omega

theorem finiteNumber_of_isFinite {d : Decimal} (hd : d.toFloat.isFinite) (negative : Bool)
    (rest : List Char) :
    finiteNumber negative d rest = .ok (.num (.float (withSign negative d.toFloat)), rest) := by
  simp only [finiteNumber, hd, if_true, withSign]

theorem exponent_text {whole fraction rest : List Char} {e : Int} (he : e.natAbs < 2 ^ 31)
    (hfinite : (Decimal.ofParts whole fraction e).toFloat.isFinite)
    (hrest : Delimited rest) (negative : Bool) :
    exponent negative whole fraction
      ((if e < 0 then '-' else '+') :: digitsOfNat e.natAbs ++ rest) =
      .ok (.num (.float (withSign negative (Decimal.ofParts whole fraction e).toFloat)), rest) := by
  have hdigits : digits (digitsOfNat e.natAbs ++ rest) = (digitsOfNat e.natAbs, rest) :=
    digits_append (fun c hc => isDigit_of_mem_digitsOfNat hc) (fun c hc => (hrest c hc).1)
  have hnone : overflow? (digitsOfNat e.natAbs) = none := by
    apply overflow?_eq_none
    rw [natOfDigits_digitsOfNat]
    rw [maxExponent]
    omega
  have hempty : (digitsOfNat e.natAbs).isEmpty = false := by
    rw [List.isEmpty_eq_false_iff]
    exact digitsOfNat_ne_nil _
  rw [← finiteNumber_of_isFinite hfinite]
  by_cases hneg : e < 0
  · rw [if_pos hneg]
    simp only [exponent, exponentSign, List.cons_append, hdigits, hempty, hnone,
      natOfDigits_digitsOfNat, if_true, Bool.false_eq_true, if_false]
    rw [show -((e.natAbs : Nat) : Int) = e by omega]
  · rw [if_neg hneg]
    simp only [exponent, exponentSign, List.cons_append, hdigits, hempty, hnone,
      natOfDigits_digitsOfNat, Bool.false_eq_true, if_false]
    rw [show ((e.natAbs : Nat) : Int) = e by omega]

/-- Digits with no zero in front of others get past the check for leading zeros. -/
theorem number_eq {ds rest : List Char} (hne : ds ≠ []) (hds : ∀ c ∈ ds, c.isDigit)
    (hleading : ds = ['0'] ∨ ds.head? ≠ some '0') (hrest : ∀ c ∈ rest.head?, c.isDigit = false)
    (negative : Bool) : number negative (ds ++ rest) = wholeTail negative ds rest := by
  unfold number
  rw [digits_append hds hrest]
  dsimp only
  split
  · exact absurd rfl hne
  · exact absurd rfl hne
  · rcases hleading with h | h
    · cases h
    · exact absurd rfl h
  · rfl

theorem wholeTail_of_delimited {rest : List Char} (hrest : Delimited rest) (negative : Bool)
    (whole : List Char) : wholeTail negative whole rest = wholeNumber negative whole rest := by
  unfold wholeTail
  split
  · exact absurd rfl (hrest '.' rfl).2.1
  · exact absurd rfl (hrest 'e' rfl).2.2.1
  · exact absurd rfl (hrest 'E' rfl).2.2.2
  · rfl

theorem fractionTail_of_delimited {rest : List Char} (hrest : Delimited rest) (negative : Bool)
    (whole fraction : List Char) :
    fractionTail negative whole fraction rest =
      finiteNumber negative (.ofParts whole fraction 0) rest := by
  unfold fractionTail
  split
  · exact absurd rfl (hrest 'e' rfl).2.2.1
  · exact absurd rfl (hrest 'E' rfl).2.2.2
  · rfl

theorem fractionPart_append {fraction rest : List Char} (hne : fraction ≠ [])
    (hfraction : ∀ c ∈ fraction, c.isDigit) (hrest : ∀ c ∈ rest.head?, c.isDigit = false)
    (negative : Bool) (whole : List Char) :
    fractionPart negative whole (fraction ++ rest) = fractionTail negative whole fraction rest := by
  unfold fractionPart
  rw [digits_append hfraction hrest]
  dsimp only
  rw [if_neg (by rw [List.isEmpty_iff]; exact hne)]

theorem head?_exponentText (e : Int) (cs : List Char) :
    ∀ c ∈ (Numeral.exponentText e ++ cs).head?, c.isDigit = false := by
  intro c hc
  rw [Numeral.exponentText, List.cons_append, List.head?_cons, Option.mem_some_iff] at hc
  subst hc
  decide

/-- The digits of a numeral with a fraction or an exponent are read as the float that it spells. -/
theorem number_text {n : Numeral} (hn : n.Good) (hm : n.Marked) {rest : List Char}
    (hrest : Delimited rest) (hfinite : n.decimal.toFloat.isFinite) (negative : Bool) :
    number negative (n.text ++ rest) =
      .ok (.num (.float (withSign negative n.decimal.toFloat)), rest) := by
  obtain ⟨whole, fraction, e?⟩ := n
  obtain ⟨hne, hwhole, hfraction, hleading, hexp⟩ := hn
  dsimp only at hne hwhole hfraction hleading hexp
  have hdigit : ∀ c ∈ rest.head?, c.isDigit = false := fun c hc => (hrest c hc).1
  unfold Numeral.text
  dsimp only
  by_cases hf : fraction = []
  · subst hf
    rcases e? with _ | e
    · rcases hm with hm | hm <;> exact absurd rfl hm
    · rw [if_pos rfl, List.append_nil, Option.map_some, Option.getD_some, List.append_assoc,
        number_eq hne hwhole hleading (head?_exponentText e rest)]
      exact exponent_text (hexp e rfl) hfinite hrest negative
  · rw [if_neg hf, List.append_assoc, List.append_assoc, number_eq hne hwhole hleading (by simp)]
    change fractionPart negative whole (fraction ++ _) = _
    rcases e? with _ | e
    · rw [Option.map_none, Option.getD_none, List.nil_append,
        fractionPart_append hf hfraction hdigit, fractionTail_of_delimited hrest]
      exact finiteNumber_of_isFinite hfinite negative rest
    · rw [Option.map_some, Option.getD_some,
        fractionPart_append hf hfraction (head?_exponentText e rest)]
      exact exponent_text (hexp e rfl) hfinite hrest negative

theorem wholeNumber_legible {n : Int} (hn : (Number.whole n).Legible) (rest : List Char) :
    wholeNumber (decide (n < 0)) (digitsOfNat n.natAbs) rest = .ok (.num (.whole n), rest) := by
  obtain ⟨hlow, hhigh⟩ := hn
  simp only [wholeNumber, natOfDigits_digitsOfNat]
  by_cases hneg : n < 0
  · rw [if_neg (by simp [hneg]), if_pos (by simp [hneg]; omega)]
    rw [show (-(n.natAbs : Int)) = n by omega]
  · rw [if_pos (by simp [hneg]; omega)]
    rw [show (n.natAbs : Int) = n by omega]

/-- A legible number is written as digits with a sign, and these are read as the number. -/
theorem exists_numberText {n : Number} (hn : n.Legible) :
    ∃ negative d ds, numberText n = signText negative (d :: ds) ∧ d.isDigit ∧
      ∀ rest, Delimited rest → number negative (d :: ds ++ rest) = .ok (.num n, rest) := by
  rcases n with n | x
  · obtain ⟨d, ds, hds⟩ := List.exists_cons_of_ne_nil (digitsOfNat_ne_nil n.natAbs)
    have hdigits : ∀ c ∈ digitsOfNat n.natAbs, c.isDigit := fun c hc =>
      isDigit_of_mem_digitsOfNat hc
    refine ⟨decide (n < 0), d, ds, ?_, hdigits d (by simp [hds]), ?_⟩
    · rw [← hds, numberText, wholeText, signText]
      simp
    · intro rest hrest
      rw [← hds, number_eq (digitsOfNat_ne_nil _) hdigits ?_ fun c hc => (hrest c hc).1,
        wholeTail_of_delimited hrest, wholeNumber_legible hn]
      rcases Nat.eq_zero_or_pos n.natAbs with h0 | h0
      · exact .inl (by rw [h0]; rfl)
      · exact .inr (head_digitsOfNat (by omega))
  · obtain ⟨negative, m, hgood, htext, hvalue, -, hmarked⟩ :=
      exists_written (s := .json) (.inr rfl) hn
    obtain ⟨d, ds, hds⟩ := List.exists_cons_of_ne_nil hgood.whole_ne_nil
    have htail : ∃ t, m.text = d :: t := by
      unfold Numeral.text
      rw [hds]
      exact ⟨_, rfl⟩
    obtain ⟨t, ht⟩ := htail
    have hfinite : m.decimal.toFloat.isFinite := by
      rw [← hvalue] at hn
      unfold withSign at hn
      split at hn
      · rwa [Number.Legible, isFinite_neg] at hn
      · exact hn
    refine ⟨negative, d, t, ?_, hgood.whole_digits d (by simp [hds]), ?_⟩
    · rw [← ht, ← htext]
      exact if_pos hn
    · intro rest hrest
      rw [← ht, number_text hgood (hmarked (by simp [Style.json])) hrest hfinite, hvalue]

/-! ## What is read as a number -/

theorem finiteNumber_isLegible {negative : Bool} {d : Decimal} {rest rest' : List Char} {v : Json}
    (h : finiteNumber negative d rest = .ok (v, rest')) : ∃ n, v = .num n ∧ n.Legible := by
  simp only [finiteNumber] at h
  split at h
  · rename_i hfinite
    cases h
    refine ⟨_, rfl, ?_⟩
    split
    · exact (isFinite_neg _).trans hfinite
    · exact hfinite
  · cases h

theorem exponent_isLegible {negative : Bool} {whole fraction cs rest : List Char} {v : Json}
    (h : exponent negative whole fraction cs = .ok (v, rest)) : ∃ n, v = .num n ∧ n.Legible := by
  unfold exponent at h
  dsimp only at h
  split at h
  · split at h <;> cases h
  · split at h
    · exact finiteNumber_isLegible h
    · split at h
      · cases h
      · cases h
        refine ⟨_, rfl, ?_⟩
        cases negative
        · exact (by decide : (0.0 : Float).isFinite)
        · exact (by decide : (-0.0 : Float).isFinite)

theorem fractionPart_isLegible {negative : Bool} {whole cs rest : List Char} {v : Json}
    (h : fractionPart negative whole cs = .ok (v, rest)) : ∃ n, v = .num n ∧ n.Legible := by
  unfold fractionPart at h
  dsimp only at h
  split at h
  · split at h <;> cases h
  · unfold fractionTail at h
    split at h
    · exact exponent_isLegible h
    · exact exponent_isLegible h
    · exact finiteNumber_isLegible h

theorem wholeNumber_isLegible {negative : Bool} {whole cs rest : List Char} {v : Json}
    (h : wholeNumber negative whole cs = .ok (v, rest)) : ∃ n, v = .num n ∧ n.Legible := by
  simp only [wholeNumber, Bool.and_eq_true, Bool.not_eq_true', decide_eq_true_eq] at h
  split at h
  · rename_i hbound
    cases h
    refine ⟨_, rfl, ?_⟩
    unfold Number.Legible
    omega
  · split at h
    · rename_i hbound
      cases h
      refine ⟨_, rfl, ?_⟩
      unfold Number.Legible
      omega
    · exact finiteNumber_isLegible h

/-- Whatever is read as a number is one that a text can spell. -/
theorem number_isLegible {negative : Bool} {cs rest : List Char} {v : Json}
    (h : number negative cs = .ok (v, rest)) : ∃ n, v = .num n ∧ n.Legible := by
  unfold number at h
  dsimp only at h
  split at h
  · cases h
  · cases h
  · cases h
  · unfold wholeTail at h
    split at h
    · exact fractionPart_isLegible h
    · exact exponent_isLegible h
    · exact exponent_isLegible h
    · exact wholeNumber_isLegible h

/-! ## Strings -/

theorem hexDigit?_high {c : Char} (hc : c.toNat < 0x20) :
    hexDigit? (hexDigit (c.toNat / 16)) = some (c.toNat / 16) :=
  hexDigit?_hexDigit ⟨c.toNat / 16, by omega⟩

theorem hexDigit?_low (c : Char) : hexDigit? (hexDigit (c.toNat % 16)) = some (c.toNat % 16) :=
  hexDigit?_hexDigit ⟨c.toNat % 16, by omega⟩

/-- A character that is no digit differs from all digits. -/
theorem hexDigit_ne {c : Char} (hc : hexDigit? c = none) {n : Nat} (hn : n < 16) :
    hexDigit n ≠ c := by
  rintro rfl
  have hdigit : hexDigit? (hexDigit n) = some n := hexDigit?_hexDigit ⟨n, hn⟩
  rw [hc] at hdigit
  cases hdigit

theorem escape_control {c : Char} (hc : c.toNat < 0x20) (cs : List Char) :
    escape ('u' :: '0' :: '0' :: hexDigit (c.toNat / 16) :: hexDigit (c.toNat % 16) :: cs) =
      .ok (c, cs) := by
  have hbytes : ¬ byteCount (['0', '0', hexDigit (c.toNat / 16), hexDigit (c.toNat % 16)]) < 4 := by
    have := fun c : Char => c.utf8Size_pos
    simp only [byteCount, List.foldl_cons, List.foldl_nil]
    have h1 := this '0'
    have h2 := this (hexDigit (c.toNat / 16))
    have h3 := this (hexDigit (c.toNat % 16))
    omega
  have hunit : unit ('0' :: '0' :: hexDigit (c.toNat / 16) :: hexDigit (c.toNat % 16) :: cs) =
      .ok (c.toNat, cs) := by
    unfold unit
    rw [if_neg (by simpa using hbytes)]
    dsimp only
    rw [hexDigit?_high hc, hexDigit?_low, show hexDigit? '0' = some 0 from rfl]
    dsimp only
    rw [show ((0 * 16 + 0) * 16 + c.toNat / 16) * 16 + c.toNat % 16 = c.toNat by omega]
  simp only [escape, unitEscape, hunit, bind, Except.bind, pure, Except.pure]
  rw [if_neg (by omega), if_pos (by omega), Char.ofNat_toNat]

theorem characters_escaped (b : Char) (bound : List Char) (c : Char) (cs : List Char) :
    characters (b :: bound) (escaped c ++ cs) =
      (characters bound cs).map fun (es, cs) => (c :: es, cs) := by
  unfold escaped
  split
  · subst_vars; rfl
  split
  · subst_vars; rfl
  split
  · subst_vars; rfl
  split
  · subst_vars; rfl
  split
  · subst_vars; rfl
  split
  · subst_vars; rfl
  split
  · subst_vars; rfl
  split
  · rename_i hc
    rw [List.cons_append, characters, if_neg (by decide), if_pos rfl]
    simp only [List.cons_append, List.nil_append, escape_control hc]
    rfl
  · rename_i hquote hslash _ _ _ _ _ hc
    rw [List.singleton_append, characters, if_neg hquote, if_neg hslash, if_neg hc]
    rfl

theorem characters_flatMap (s rest : List Char) :
    ∀ bound : List Char, s.length < bound.length →
      characters bound (s.flatMap escaped ++ '"' :: rest) = .ok (s, rest) := by
  induction s with
  | nil =>
    intro bound hbound
    obtain ⟨b, bound, rfl⟩ := List.exists_cons_of_length_pos hbound
    rfl
  | cons c s ih =>
    intro bound hbound
    obtain ⟨b, bound, rfl⟩ := List.exists_cons_of_length_pos (Nat.zero_lt_of_lt hbound)
    rw [List.flatMap_cons, List.append_assoc, characters_escaped,
      ih bound (by simpa using hbound)]
    rfl

theorem one_le_length_escaped (c : Char) : 1 ≤ (escaped c).length := by
  unfold escaped
  repeat' split
  all_goals simp

theorem length_le_flatMap_escaped (s : List Char) : s.length ≤ (s.flatMap escaped).length := by
  induction s with
  | nil => exact Nat.le_refl _
  | cons c s ih =>
    rw [List.flatMap_cons, List.length_append, List.length_cons]
    have := one_le_length_escaped c
    omega

/-- A string is read back from its quoted form. -/
theorem string_quote (s : String) (rest : List Char) :
    string (s.toList.flatMap escaped ++ '"' :: rest) = .ok (s, rest) := by
  unfold string
  rw [characters_flatMap s.toList rest _ (by
    have := length_le_flatMap_escaped s.toList
    rw [List.length_append, List.length_cons]
    omega)]
  change Except.ok (String.ofList s.toList, rest) = _
  rw [String.ofList_toList]

end Json

end Beamline

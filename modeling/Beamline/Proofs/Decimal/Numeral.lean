import Beamline.Decimal.Style
import Beamline.Proofs.Decimal.Rounding

/-!
# Numerals

A numeral is what a number looks like in a text: digits, perhaps a fraction, perhaps an exponent.

* `natOfDigits_*`, `digitsOfNat_*` : digits and the numbers they spell;
* `Numeral.text`, `Numeral.decimal` : the text of a numeral and the decimal that it spells;
* `writeDecimal_eq` : every written form of a decimal is the text of a numeral of the same value.
-/

namespace Beamline.Decimal

/-! ## Digits -/

theorem natOfDigits_eq (cs : List Char) : natOfDigits cs = Nat.ofDigitChars 10 cs 0 :=
  Nat.ofDigitChars_eq_foldl.symm

theorem natOfDigits_append (xs ys : List Char) :
    natOfDigits (xs ++ ys) = natOfDigits xs * 10 ^ ys.length + natOfDigits ys := by
  rw [natOfDigits_eq, natOfDigits_eq, natOfDigits_eq, Nat.ofDigitChars_append,
    Nat.ofDigitChars_eq_ofDigitChars_zero, Nat.mul_comm]

theorem natOfDigits_zeros (n : Nat) : natOfDigits (zeros n) = 0 := by
  rw [natOfDigits_eq, zeros, Nat.ofDigitChars_replicate_zero, Nat.mul_zero]

theorem natOfDigits_digitsOfNat (n : Nat) : natOfDigits (digitsOfNat n) = n := by
  rw [natOfDigits_eq]
  exact Nat.ofDigitChars_ten_toDigits

theorem isDigit_of_mem_digitsOfNat {n : Nat} {c : Char} (h : c ∈ digitsOfNat n) : c.isDigit :=
  Nat.isDigit_of_mem_toDigits (by decide) (by decide) h

theorem digitsOfNat_ne_nil (n : Nat) : digitsOfNat n ≠ [] :=
  Nat.toDigits_ne_nil

theorem length_zeros (n : Nat) : (zeros n).length = n :=
  List.length_replicate

/-- No number but zero is written with a zero in front. -/
theorem head_digitsOfNat {n : Nat} (hn : n ≠ 0) : (digitsOfNat n).head? ≠ some '0' := by
  induction n using Nat.strongRecOn with
  | ind n ih =>
    unfold digitsOfNat
    rcases Nat.lt_or_ge n 10 with h | h
    · rw [Nat.toDigits_of_lt_base h]
      interval_cases n <;> simp_all
    · rw [Nat.toDigits_of_base_le (by decide) h, List.head?_append_of_ne_nil _ Nat.toDigits_ne_nil]
      exact ih (n / 10) (by omega) (by omega)

theorem lt_pow_length_digitsOfNat (n : Nat) : n < 10 ^ (digitsOfNat n).length :=
  (Nat.length_toDigits_le_iff (by decide) (List.length_pos_iff.2 (digitsOfNat_ne_nil n))).1 le_rfl

theorem pow_length_digitsOfNat_le {n : Nat} (hn : n ≠ 0) :
    10 ^ ((digitsOfNat n).length - 1) ≤ n := by
  by_contra h
  have hlen := List.length_pos_iff.2 (digitsOfNat_ne_nil n)
  rcases Nat.eq_zero_or_pos ((digitsOfNat n).length - 1) with h0 | h0
  · rw [h0] at h
    omega
  · have := (Nat.length_toDigits_le_iff (b := 10) (n := n) (by decide) h0).2 (by omega)
    unfold digitsOfNat at *
    omega

/-! ## Significant digits -/

/-- The digits that are left off are zeros. -/
theorem significant_append (n : Nat) : ∃ k, significant n ++ zeros k = digitsOfNat n := by
  unfold significant
  refine ⟨((digitsOfNat n).reverse.takeWhile (· == '0')).length, ?_⟩
  have h : zeros ((digitsOfNat n).reverse.takeWhile (· == '0')).length =
      ((digitsOfNat n).reverse.takeWhile (· == '0')).reverse := by
    rw [zeros, ← List.reverse_replicate, ← List.eq_replicate_of_mem]
    intro c hc
    simpa using List.mem_takeWhile_imp hc
  rw [h, ← List.reverse_append, List.takeWhile_append_dropWhile, List.reverse_reverse]

theorem significant_ne_nil {n : Nat} (hn : n ≠ 0) : significant n ≠ [] := by
  intro h
  obtain ⟨k, hk⟩ := significant_append n
  rw [h, List.nil_append] at hk
  have := natOfDigits_digitsOfNat n
  rw [← hk, natOfDigits_zeros] at this
  exact hn this.symm

/-! ## Numerals -/

/-- The digits before and behind the point, and the exponent if there is one. -/
structure Numeral where
  whole : List Char
  fraction : List Char
  exponent : Option Int

namespace Numeral

/-- The text of an exponent. -/
def exponentText (e : Int) : List Char :=
  'e' :: (if e < 0 then '-' else '+') :: digitsOfNat e.natAbs

def text (n : Numeral) : List Char :=
  n.whole ++ (if n.fraction = [] then [] else '.' :: n.fraction) ++
    (n.exponent.map exponentText).getD []

/-- The decimal that a numeral spells. -/
def decimal (n : Numeral) : Decimal :=
  .ofParts n.whole n.fraction (n.exponent.getD 0)

/-- A numeral that every reader takes: digits, no zeros in front, no huge exponent. -/
structure Good (n : Numeral) : Prop where
  whole_ne_nil : n.whole ≠ []
  whole_digits : ∀ c ∈ n.whole, c.isDigit
  fraction_digits : ∀ c ∈ n.fraction, c.isDigit
  leading : n.whole = ['0'] ∨ n.whole.head? ≠ some '0'
  exponent_lt : ∀ e ∈ n.exponent, e.natAbs < 2 ^ 31

end Numeral

theorem value_ofParts (whole fraction : List Char) (shift : Int) :
    (Decimal.ofParts whole fraction shift).value =
      natOfDigits (whole ++ fraction) * (10 : ℚ) ^ (shift - fraction.length) :=
  rfl

/-- The value of digits with the point behind the first `point` places. -/
theorem value_placed {n : Nat} {ds : List Char} {k : Nat} (h : ds ++ zeros k = digitsOfNat n)
    (e : Int) :
    natOfDigits ds * (10 : ℚ) ^ (e + (digitsOfNat n).length - ds.length) = value ⟨n, e⟩ := by
  have hn : n = natOfDigits ds * 10 ^ k := by
    have := natOfDigits_digitsOfNat n
    rw [← h, natOfDigits_append, natOfDigits_zeros, length_zeros, Nat.add_zero] at this
    exact this.symm
  have hlen : (digitsOfNat n).length = ds.length + k := by
    rw [← h, List.length_append, length_zeros]
  unfold value
  rw [hlen]
  conv_rhs => rw [hn]
  push_cast
  rw [mul_assoc, ← zpow_natCast, ← zpow_add₀ (by norm_num)]
  congr 2
  omega

/-- How styles mark a whole number: not at all, or as a fraction. -/
def Style.Plausible (s : Style) : Prop := s.whole = [] ∨ s.whole = ['.', '0']

/-- A written form whose reader sees a fraction or an exponent. -/
def Numeral.Marked (n : Numeral) : Prop := n.fraction ≠ [] ∨ n.exponent ≠ none

theorem isDigit_of_mem_zeros {n : Nat} {c : Char} (h : c ∈ zeros n) : c.isDigit := by
  rw [(List.mem_replicate.1 h).2]
  decide

section Positional

variable {ds : List Char} (hds : ds ≠ []) (hdigits : ∀ c ∈ ds, c.isDigit)
  (hhead : ds.head? ≠ some '0')
include hds hdigits

/-- All places lie behind the point. -/
theorem numeral_small (k : Nat) :
    ∃ n : Numeral, n.Good ∧ '0' :: '.' :: zeros k ++ ds = n.text ∧
      n.decimal.value = natOfDigits ds * (10 : ℚ) ^ (-(k : Int) - ds.length) ∧
      n.exponent = none ∧ n.Marked := by
  refine ⟨⟨['0'], zeros k ++ ds, none⟩, ⟨by simp, by simp, ?_, .inl rfl, by simp⟩, ?_, ?_, rfl,
    .inl ?_⟩
  · intro c hc
    rcases List.mem_append.1 hc with hc | hc
    · exact isDigit_of_mem_zeros hc
    · exact hdigits c hc
  · simp [Numeral.text, hds]
  · have hval : natOfDigits (['0'] ++ (zeros k ++ ds)) = natOfDigits ds := by
      rw [natOfDigits_append, natOfDigits_append, natOfDigits_zeros]
      simp [natOfDigits]
    rw [Numeral.decimal, value_ofParts, hval, List.length_append, length_zeros]
    congr 2
    push_cast
    simp only [Option.getD_none]
    omega
  · simp [hds]

include hhead

/-- All places lie before the point. -/
theorem numeral_large {s : Style} (hs : s.Plausible) (k : Nat) :
    ∃ n : Numeral, n.Good ∧ ds ++ zeros k ++ s.whole = n.text ∧
      n.decimal.value = natOfDigits ds * (10 : ℚ) ^ (k : Int) ∧ n.exponent = none ∧
      (s.whole ≠ [] → n.Marked) := by
  have hwhole : ∀ c ∈ ds ++ zeros k, c.isDigit := by
    intro c hc
    rcases List.mem_append.1 hc with hc | hc
    · exact hdigits c hc
    · exact isDigit_of_mem_zeros hc
  have hlead : (ds ++ zeros k).head? ≠ some '0' := by
    rwa [List.head?_append_of_ne_nil _ hds]
  have hval : natOfDigits (ds ++ zeros k) = natOfDigits ds * 10 ^ k := by
    rw [natOfDigits_append, natOfDigits_zeros, length_zeros, Nat.add_zero]
  rcases hs with hs | hs
  · refine ⟨⟨ds ++ zeros k, [], none⟩, ⟨by simp [hds], hwhole, by simp, .inr hlead, by simp⟩,
      ?_, ?_, rfl, fun h => absurd hs h⟩
    · simp [Numeral.text, hs]
    · rw [Numeral.decimal, value_ofParts, List.append_nil, hval]
      push_cast
      simp
  · refine ⟨⟨ds ++ zeros k, ['0'], none⟩, ⟨by simp [hds], hwhole, by simp, .inr hlead, by simp⟩, ?_,
      ?_, rfl, fun _ => .inl (by simp)⟩
    · simp [Numeral.text, hs]
    · rw [Numeral.decimal, value_ofParts, natOfDigits_append, hval,
        show natOfDigits ['0'] = 0 from rfl]
      push_cast
      simp

/-- The point stands between two places. -/
theorem numeral_middle {k : Nat} (hk : 0 < k) (hlt : k < ds.length) :
    ∃ n : Numeral, n.Good ∧ ds.take k ++ '.' :: ds.drop k = n.text ∧
      n.decimal.value = natOfDigits ds * (10 : ℚ) ^ ((k : Int) - ds.length) ∧ n.exponent = none ∧
      n.Marked := by
  have hdrop : ds.drop k ≠ [] := by
    intro h
    have := List.drop_eq_nil_iff.1 h
    omega
  refine ⟨⟨ds.take k, ds.drop k, none⟩, ⟨?_, ?_, ?_, .inr ?_, by simp⟩, ?_, ?_, rfl, .inl hdrop⟩
  · simp [hds, hk.ne']
  · exact fun c hc => hdigits c (List.mem_of_mem_take hc)
  · exact fun c hc => hdigits c (List.mem_of_mem_drop hc)
  · rwa [List.head?_take, if_neg hk.ne']
  · simp [Numeral.text, hdrop]
  · rw [Numeral.decimal, value_ofParts, List.take_append_drop, List.length_drop]
    congr 2
    simp only [Option.getD_none]
    omega

theorem positionalText_eq {s : Style} (hs : s.Plausible) (point : Int) :
    ∃ n : Numeral, n.Good ∧ positionalText ds point s.whole = n.text ∧
      n.decimal.value = natOfDigits ds * (10 : ℚ) ^ (point - ds.length) ∧ n.exponent = none ∧
      (s.whole ≠ [] → n.Marked) := by
  unfold positionalText
  split
  · rename_i hpoint
    obtain ⟨n, good, htext, hval, hexp, hmark⟩ := numeral_small hds hdigits (-point).toNat
    rw [show -((-point).toNat : Int) = point by omega] at hval
    exact ⟨n, good, htext, hval, hexp, fun _ => hmark⟩
  · rename_i hpoint
    split
    · rename_i hlen
      obtain ⟨n, good, htext, hval, hexp, hmark⟩ :=
        numeral_large hds hdigits hhead hs (point.toNat - ds.length)
      rw [show ((point.toNat - ds.length : Nat) : Int) = point - ds.length by omega] at hval
      exact ⟨n, good, htext, hval, hexp, hmark⟩
    · rename_i hlen
      obtain ⟨n, good, htext, hval, hexp, hmark⟩ :=
        numeral_middle hds hdigits hhead (k := point.toNat) (by omega) (by omega)
      rw [show (point.toNat : Int) = point by omega] at hval
      exact ⟨n, good, htext, hval, hexp, fun _ => hmark⟩

theorem scientificText_eq {lead : Int} (hlead : lead.natAbs < 2 ^ 31) :
    ∃ n : Numeral, n.Good ∧ scientificText ds lead = n.text ∧
      n.decimal.value = natOfDigits ds * (10 : ℚ) ^ (lead + 1 - ds.length) ∧ n.Marked := by
  obtain ⟨d, rest, rfl⟩ := List.exists_cons_of_ne_nil hds
  refine ⟨⟨[d], rest, some lead⟩, ⟨by simp, ?_, ?_, .inr ?_, ?_⟩, ?_, ?_, .inr (by simp)⟩
  · exact fun c hc => hdigits c (List.mem_cons.2 (.inl (List.mem_singleton.1 hc)))
  · exact fun c hc => hdigits c (List.mem_cons_of_mem _ hc)
  · simpa using hhead
  · rintro e ⟨⟩
    exact hlead
  · cases rest <;> simp [scientificText, Numeral.text, Numeral.exponentText]
  · rw [Numeral.decimal, value_ofParts, List.singleton_append, List.length_cons]
    congr 2
    push_cast
    simp only [Option.getD_some]
    omega

end Positional

/-- Every written form of a decimal is the text of a numeral of the same value. -/
theorem writeDecimal_eq {s : Style} (hs : s.Plausible) {d : Decimal} (hd : d.digits ≠ 0)
    (hlead : (d.exponent + (digitsOfNat d.digits).length - 1).natAbs < 2 ^ 31) :
    ∃ n : Numeral, n.Good ∧ s.writeDecimal d = n.text ∧ n.decimal.value = d.value ∧
      ((∀ lead, s.positional lead) → n.exponent = none) ∧ (s.whole ≠ [] → n.Marked) := by
  obtain ⟨k, hk⟩ := significant_append d.digits
  have hds := significant_ne_nil hd
  have hdigits : ∀ c ∈ significant d.digits, c.isDigit := by
    intro c hc
    exact isDigit_of_mem_digitsOfNat (hk ▸ List.mem_append_left _ hc)
  have hhead : (significant d.digits).head? ≠ some '0' := by
    have happend : (significant d.digits ++ zeros k).head? = (significant d.digits).head? :=
      List.head?_append_of_ne_nil _ hds
    rw [← happend, hk]
    exact head_digitsOfNat hd
  have hvalue := value_placed hk d.exponent
  unfold Style.writeDecimal
  dsimp only
  split
  · obtain ⟨n, good, htext, hval, hexp, hmark⟩ := positionalText_eq hds hdigits hhead hs
      (d.exponent + (digitsOfNat d.digits).length - 1 + 1)
    refine ⟨n, good, htext, ?_, fun _ => hexp, hmark⟩
    rw [hval, ← hvalue]
    congr 2
    omega
  · rename_i hpos
    obtain ⟨n, good, htext, hval, hmark⟩ := scientificText_eq hds hdigits hhead hlead
    refine ⟨n, good, htext, ?_, fun h => absurd (h _) hpos, fun _ => hmark⟩
    rw [hval, ← hvalue]
    congr 2
    omega

end Beamline.Decimal

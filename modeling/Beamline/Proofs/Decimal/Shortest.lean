import Beamline.Proofs.Decimal.Numeral

/-!
# The written form of a float reads back

* `toFloat_shortest` : the shortest decimal of a float is read as that float;
* `Written`, `exists_written_abs` : the written form of a finite float is a numeral with a sign, and
  what the numeral spells is read as the float without its sign;
* `exists_written_of_abs` : without a minus sign, it is the numeral alone.
-/

namespace Beamline.Decimal

open Float.Model Float.Model.UnpackedFloat

/-- A decimal is taken only if it reads back. -/
theorem toFloat_of_hit? {tie : Tie} {x : Float} {num den : Nat} {unit : Int} {d : Decimal}
    (h : hit? tie x num den unit = some d) : d.toFloat = x := by
  unfold hit? at h
  generalize onGrid num den unit = grid at h
  obtain ⟨low, rest⟩ := grid
  dsimp only at h
  split at h
  · rename_i hbelow
    split at h
    · rename_i habove
      rcases rest with _ | _ | _
      · exact Option.some.inj h ▸ hbelow
      · rcases tie with _ | _
        · dsimp only at h
          split at h
          · exact Option.some.inj h ▸ hbelow
          · exact Option.some.inj h ▸ habove
        · exact Option.some.inj h ▸ habove
      · exact Option.some.inj h ▸ habove
    · exact Option.some.inj h ▸ hbelow
  · split at h
    · rename_i habove
      exact Option.some.inj h ▸ habove
    · cases h

theorem value_exact (m : Nat) (e : Int) : (exact m e).value = m * 2 ^ e := by
  unfold exact value
  split
  · rename_i he
    rw [Nat.pow_eq]
    push_cast
    rw [mul_one, ← zpow_natCast 2, Int.toNat_of_nonneg he]
  · rename_i he
    rw [Nat.pow_eq]
    push_cast
    rw [← zpow_natCast 5, Int.toNat_of_nonneg (by omega), mul_assoc, zpow_neg, ← inv_zpow,
      ← mul_zpow]
    norm_num

/-- The shortest decimal of a float is read as that float. -/
theorem toFloat_shortest (tie : Tie) {x : Float} {s : Sign} {m : Nat} {e : Int} {h : 0 < m}
    (hx : x.toModel.unpack = .finite s m e h) : (shortest tie x.abs m e).toFloat = x.abs := by
  unfold shortest
  dsimp only
  cases hfound : (List.range maxDigits).findSome? fun (n : Nat) =>
      hit? tie x.abs (fraction m e).1 (fraction m e).2
        (leading (fraction m e).1 (fraction m e).2 - n)
    with
  | some d =>
    obtain ⟨n, -, hd⟩ := List.exists_of_findSome?_eq_some hfound
    exact toFloat_of_hit? hd
  | none =>
    have hcanonical : Proper (.finite s m e h) := by
      rw [← hx]
      exact proper_toModel_unpack x
    apply eq_of_unpack_eq
    rw [unpack_abs, hx, Option.getD_none]
    exact unpack_toFloat_of_canonical hcanonical (value_exact m e)

/-- The values of the decimals that are read as a float other than zero. -/
theorem value_bounds {d : Decimal} {s : Sign} {m : Nat} {e : Int} {h : 0 < m}
    (hd : d.toFloat.toModel.unpack = .finite s m e h) :
    d.digits ≠ 0 ∧ (2 : ℚ) ^ (-1075 : Int) ≤ d.value ∧ d.value < 2 ^ (1025 : Int) := by
  rw [toFloat_eq] at hd
  have hdigits : d.digits ≠ 0 := by
    intro h0
    have hval : d.value = 0 := by
      unfold value
      rw [h0, Nat.cast_zero, zero_mul]
    rw [hval, rounded_zero, unpack_ofModel_pack (u := .zero .positive) trivial] at hd
    cases hd
  have hpos := value_pos hdigits
  refine ⟨hdigits, ?_, ?_⟩
  · -- anything less is rounded to zero
    by_contra hlt
    rw [rounded_of_small _ hpos (not_le.1 hlt),
      unpack_ofModel_pack (u := .zero .positive) trivial] at hd
    cases hd
  · -- and anything more to infinity
    rw [lt_two_zpow_iff hpos]
    by_contra hge
    have hscale : 972 ≤ scale d.value := by
      unfold scale
      omega
    have hinf : (Float.ofModel (.pack (rounded .positive d.value))).toModel.unpack =
        .infinity .positive := by
      refine (congrArg (UnpackedFloat.unpack .binary64)
        (pack_rounded_of_large .positive hpos hscale)).trans ?_
      exact unpack_pack (u := .infinity .positive) trivial
    rw [hinf] at hd
    cases hd

theorem natAbs_lead_lt {d : Decimal} (hd : d.digits ≠ 0) (hlow : (2 : ℚ) ^ (-1075 : Int) ≤ d.value)
    (hhigh : d.value < 2 ^ (1025 : Int)) :
    (d.exponent + (digitsOfNat d.digits).length - 1).natAbs < 2 ^ 31 := by
  set n := (digitsOfNat d.digits).length with hn
  have hlen : 0 < n := List.length_pos_iff.2 (digitsOfNat_ne_nil d.digits)
  have hten : (1 : ℚ) < 10 := by norm_num
  have hup : d.exponent + n - 1 < 1025 := by
    have hle : (10 : ℚ) ^ ((n : Int) - 1) ≤ d.digits := by
      have := pow_length_digitsOfNat_le hd
      rw [← hn] at this
      rw [show (n : Int) - 1 = (n - 1 : Nat) by omega, zpow_natCast]
      exact_mod_cast this
    rw [← zpow_lt_zpow_iff_right₀ hten]
    calc (10 : ℚ) ^ (d.exponent + n - 1) = 10 ^ ((n : Int) - 1) * 10 ^ d.exponent := by
          rw [← zpow_add₀ (by norm_num)]; congr 1; omega
      _ ≤ d.value := mul_le_mul_of_nonneg_right hle (by positivity)
      _ < 2 ^ (1025 : Int) := hhigh
      _ ≤ 10 ^ (1025 : Int) := zpow_le_zpow_left₀ (by norm_num) (by norm_num) (by norm_num)
  have hdown : -1075 < d.exponent + n := by
    have hlt : (d.digits : ℚ) < 10 ^ (n : Int) := by
      exact_mod_cast lt_pow_length_digitsOfNat d.digits
    rw [← zpow_lt_zpow_iff_right₀ hten]
    calc (10 : ℚ) ^ (-1075 : Int) ≤ 2 ^ (-1075 : Int) := by
          rw [zpow_neg, zpow_neg]
          exact inv_anti₀ (by positivity)
            (zpow_le_zpow_left₀ (by norm_num) (by norm_num) (by norm_num))
      _ ≤ d.value := hlow
      _ < 10 ^ (n : Int) * 10 ^ d.exponent := mul_lt_mul_of_pos_right hlt (by positivity)
      _ = 10 ^ (d.exponent + n) := by rw [← zpow_add₀ (by norm_num)]; congr 1; omega
  omega

/-! ## Floats -/

/-- A float with a minus sign, if there is one. -/
def withSign (negative : Bool) (x : Float) : Float := if negative then -x else x

/-- A text with a minus sign in front, if there is one. -/
def signText (negative : Bool) (cs : List Char) : List Char := if negative then '-' :: cs else cs

/-- The numeral that a style writes for a finite float, and its sign. -/
structure Written (s : Style) (x : Float) (negative : Bool) (n : Numeral) : Prop where
  good : n.Good
  text : s.write x = signText negative n.text
  value : withSign negative n.decimal.toFloat = x
  positional : (∀ lead, s.positional lead) → n.exponent = none
  marked : s.whole ≠ [] → n.Marked

/-- Whether a sign is a minus sign. -/
def isNegative : Sign → Bool
  | .negative => true
  | .positive => false

theorem withSign_abs {x : Float} {sign : Sign}
    (h : x.toModel.unpack = .zero sign ∨ ∃ m e hm, x.toModel.unpack = .finite sign m e hm) :
    withSign (isNegative sign) x.abs = x := by
  apply eq_of_unpack_eq
  rcases h with h | ⟨m, e, hm, h⟩ <;> cases sign
  · rw [isNegative, withSign, if_pos rfl, unpack_neg, unpack_abs, h]
    rfl
  · rw [isNegative, withSign, if_neg Bool.false_ne_true, unpack_abs, h]
    rfl
  · rw [isNegative, withSign, if_pos rfl, unpack_neg, unpack_abs, h]
    rfl
  · rw [isNegative, withSign, if_neg Bool.false_ne_true, unpack_abs, h]
    rfl

/-- A finite float whose sign is not a plus sign has a minus sign. -/
theorem neg_abs {x : Float} (hx : x.isFinite) (h : x.abs ≠ x) : -x.abs = x := by
  change x.toModel.unpack.isFinite at hx
  have hsign : ∃ sign, withSign (isNegative sign) x.abs = x := by
    cases hu : x.toModel.unpack with
    | infinity sign => rw [hu] at hx; cases hx
    | notANumber => rw [hu] at hx; cases hx
    | zero sign => exact ⟨sign, withSign_abs (.inl hu)⟩
    | finite sign m e hm => exact ⟨sign, withSign_abs (.inr ⟨m, e, hm, hu⟩)⟩
  obtain ⟨sign, hsign⟩ := hsign
  cases sign with
  | positive => exact absurd hsign h
  | negative => exact hsign

/-- The written form of a finite float is a numeral with its sign, and reads back. The numeral
alone spells the float without its sign. -/
theorem exists_written_abs {s : Style} (hs : s.Plausible) {x : Float} (hx : x.isFinite) :
    ∃ negative n, Written s x negative n ∧ n.decimal.toFloat = x.abs := by
  change x.toModel.unpack.isFinite at hx
  cases hu : x.toModel.unpack with
  | infinity sign => rw [hu] at hx; cases hx
  | notANumber => rw [hu] at hx; cases hx
  | zero sign =>
    have hfraction : ∃ fraction : List Char, (∀ c ∈ fraction, c.isDigit) ∧
        s.whole = (if fraction = [] then [] else '.' :: fraction) ∧ natOfDigits fraction = 0 := by
      rcases hs with hs | hs
      · exact ⟨[], by simp, by simp [hs], rfl⟩
      · exact ⟨['0'], by simp, by simp [hs], rfl⟩
    obtain ⟨fraction, hdigits, hwhole, hzero⟩ := hfraction
    have hval : (Numeral.mk ['0'] fraction none).decimal.value = 0 := by
      rw [Numeral.decimal, value_ofParts, natOfDigits_append, hzero]
      simp [natOfDigits]
    have habs : (Numeral.mk ['0'] fraction none).decimal.toFloat = x.abs := by
      apply eq_of_unpack_eq
      rw [toFloat_eq, hval, rounded_zero, unpack_abs, hu,
        unpack_ofModel_pack (u := .zero .positive) trivial]
      rfl
    refine ⟨isNegative sign, ⟨['0'], fraction, none⟩,
      ⟨⟨by simp, by simp, hdigits, .inl rfl, by simp⟩, ?_, ?_, fun _ => rfl, fun h => .inl ?_⟩,
      habs⟩
    · unfold Style.write
      rw [hu, hwhole]
      cases sign <;> simp [signText, isNegative, Numeral.text]
    · rw [habs]
      exact withSign_abs (.inl hu)
    · rintro rfl
      exact h (by simpa using hwhole)
  | finite sign m e hm =>
    have hd := toFloat_shortest s.tie hu
    have hdu : (shortest s.tie x.abs m e).toFloat.toModel.unpack = .finite .positive m e hm := by
      rw [hd, unpack_abs, hu]
      rfl
    obtain ⟨hdigits, hlow, hhigh⟩ := value_bounds hdu
    obtain ⟨n, good, htext, hval, hpositional, hmarked⟩ :=
      writeDecimal_eq hs hdigits (natAbs_lead_lt hdigits hlow hhigh)
    have habs : n.decimal.toFloat = x.abs := by
      rw [toFloat_congr hval, hd]
    refine ⟨isNegative sign, n, ⟨good, ?_, ?_, hpositional, hmarked⟩, habs⟩
    · unfold Style.write
      rw [hu, ← htext]
      cases sign <;> rfl
    · rw [habs]
      exact withSign_abs (.inr ⟨m, e, hm, hu⟩)

theorem exists_written {s : Style} (hs : s.Plausible) {x : Float} (hx : x.isFinite) :
    ∃ negative n, Written s x negative n := by
  obtain ⟨negative, n, hw, -⟩ := exists_written_abs hs hx
  exact ⟨negative, n, hw⟩

/-- A finite float without a minus sign is written without one. -/
theorem exists_written_of_abs {s : Style} (hs : s.Plausible) {x : Float} (hx : x.isFinite)
    (habs : x.abs = x) : ∃ n, Written s x false n := by
  obtain ⟨negative, n, hw, hval⟩ := exists_written_abs hs hx
  cases negative with
  | false => exact ⟨n, hw⟩
  | true =>
    have hneg : x.toModel.unpack.neg = x.toModel.unpack := by
      rw [← unpack_neg]
      conv_rhs => rw [← hw.value, hval, habs]
      rfl
    change x.toModel.unpack.isFinite at hx
    cases hu : x.toModel.unpack with
    | infinity sign => rw [hu] at hx; cases hx
    | notANumber => rw [hu] at hx; cases hx
    | zero sign => rw [hu] at hneg; cases sign <;> cases hneg
    | finite sign m e hm => rw [hu] at hneg; cases sign <;> cases hneg

end Beamline.Decimal

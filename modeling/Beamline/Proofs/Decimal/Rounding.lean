import Beamline.Decimal.Shortest
import Beamline.Proofs.Decimal.Binary64

/-!
# Reading a decimal rounds its value

`Decimal.value` is the rational number that a decimal names and `rounded` the binary64 form nearest
to a rational number, a tie going to the even mantissa.

* `extended` : a mantissa with the two bits that say how the rest compares with a half;
* `roundWithAccuracy_eq` : rounding a mantissa and an exponent rounds the number they stand for;
* `toFloat_eq` : a decimal is read as its rounded value, so decimals of one value are read alike;
* `rounded_canonical` : a number that is a binary64 value is not changed.
-/

namespace Beamline.Decimal

open Float.Model Float.Model.UnpackedFloat

/-- The number that a decimal names. -/
def value (d : Decimal) : ℚ := d.digits * (10 : ℚ) ^ d.exponent

/-! ## Mantissas with a rest -/

/-- The whole part of `q` with its round bit and its sticky bit. -/
def extended (q : ℚ) : ExtendedMantissa :=
  let rest := q - ⌊q⌋₊
  ⟨⌊q⌋₊, 1 / 2 ≤ rest, rest ≠ 0 ∧ rest ≠ 1 / 2⟩

theorem extended_add (a : Nat) {f : ℚ} (h₀ : 0 ≤ f) (h₁ : f < 1) :
    extended (a + f) = ⟨a, 1 / 2 ≤ f, f ≠ 0 ∧ f ≠ 1 / 2⟩ := by
  have h : ⌊(a : ℚ) + f⌋₊ = a := by
    rw [Nat.floor_eq_iff (by positivity)]
    constructor <;> linarith
  simp only [extended, h, add_sub_cancel_left]

theorem extended_natCast (m : Nat) :
    ExtendedMantissa.ofMantissaAndAccuracy m .exact = extended m := by
  have h := extended_add m (f := 0) le_rfl one_pos
  rw [add_zero] at h
  rw [h]
  simp [ExtendedMantissa.ofMantissaAndAccuracy]

/-- A quotient with the comparison of twice the remainder is the extended mantissa of the
fraction. -/
theorem extended_div (num : Nat) {den : Nat} (hden : 0 < den) :
    ExtendedMantissa.ofMantissaAndAccuracy (num / den) (accuracyOfFraction (num % den) den) =
      extended (num / den : ℚ) := by
  have hd : (0 : ℚ) < den := by exact_mod_cast hden
  have hlt : ((num % den : Nat) : ℚ) < den := by exact_mod_cast Nat.mod_lt num hden
  have hval : (num / den : ℚ) = (num / den : Nat) + (num % den : Nat) / (den : ℚ) := by
    have hnum : (num : ℚ) = den * (num / den : Nat) + (num % den : Nat) := by
      exact_mod_cast (Nat.div_add_mod num den).symm
    rw [div_eq_iff hd.ne', add_mul, div_mul_cancel₀ _ hd.ne']
    linarith
  rw [hval, extended_add _ (by positivity) ((div_lt_one hd).2 hlt)]
  generalize num / den = q
  generalize num % den = r at hlt
  have hhalf : (1 : ℚ) / 2 ≤ r / den ↔ den ≤ 2 * r := by
    rw [div_le_div_iff₀ two_pos hd]
    norm_cast
    omega
  have heq : (r : ℚ) / den = 1 / 2 ↔ 2 * r = den := by
    rw [div_eq_div_iff hd.ne' two_ne_zero]
    norm_cast
    omega
  have hzero : (r : ℚ) / den = 0 ↔ r = 0 := by
    simp [hd.ne']
  simp only [hhalf, ne_eq, hzero, heq, accuracyOfFraction]
  by_cases hr : r = 0
  · simp [hr, ExtendedMantissa.ofMantissaAndAccuracy]
    omega
  · rw [if_neg hr]
    -- the rest is less than half a unit, half a unit, or more
    rcases h : compare (2 * r) den with _ | _ | _
    · have := Nat.compare_eq_lt.1 h
      simp only [ExtendedMantissa.ofMantissaAndAccuracy, ExtendedMantissa.mk.injEq, true_and]
      constructor <;> simp <;> omega
    · have := Nat.compare_eq_eq.1 h
      simp only [ExtendedMantissa.ofMantissaAndAccuracy, ExtendedMantissa.mk.injEq, true_and]
      constructor <;> simp <;> omega
    · have := Nat.compare_eq_gt.1 h
      simp only [ExtendedMantissa.ofMantissaAndAccuracy, ExtendedMantissa.mk.injEq, true_and]
      constructor <;> simp <;> omega

theorem rest_ne_zero_iff (f : ℚ) :
    (decide (1 / 2 ≤ f) || decide (f ≠ 0 ∧ f ≠ 1 / 2)) = decide (f ≠ 0) := by
  by_cases h₀ : f = 0
  · subst h₀
    norm_num
  · by_cases h₁ : f = 1 / 2
    · subst h₁
      norm_num
    · rw [decide_eq_true (p := f ≠ 0 ∧ f ≠ 1 / 2) ⟨h₀, h₁⟩, decide_eq_true h₀, Bool.or_true]

theorem shiftRightOne_extended {q : ℚ} (hq : 0 ≤ q) :
    (extended q).shiftRightOne = extended (q / 2) := by
  obtain ⟨a, f, h₀, h₁, rfl⟩ : ∃ (a : Nat) (f : ℚ), 0 ≤ f ∧ f < 1 ∧ q = a + f :=
    ⟨⌊q⌋₊, q - ⌊q⌋₊, sub_nonneg.2 (Nat.floor_le hq), by have := Nat.lt_floor_add_one q; linarith,
      by ring⟩
  have hval : ((a : ℚ) + f) / 2 = (a / 2 : Nat) + ((a % 2 : Nat) + f) / 2 := by
    have ha : (a : ℚ) = 2 * (a / 2 : Nat) + (a % 2 : Nat) := by
      exact_mod_cast (Nat.div_add_mod a 2).symm
    rw [ha]
    ring
  rw [extended_add a h₀ h₁, hval]
  -- the last bit of the whole part becomes the round bit
  rcases Nat.mod_two_eq_zero_or_one a with h | h <;> rw [h]
  · rw [extended_add _ (by positivity) (by push_cast; linarith)]
    simp only [ExtendedMantissa.shiftRightOne, h, ExtendedMantissa.mk.injEq, true_and,
      rest_ne_zero_iff]
    refine ⟨?_, decide_eq_decide.2 ⟨fun hf => ⟨?_, ?_⟩, fun hf => ?_⟩⟩
    · simp
      linarith
    · simpa using hf
    · intro h
      push_cast at h
      linarith
    · simpa using hf.1
  · rw [extended_add _ (by positivity) (by push_cast; linarith)]
    simp only [ExtendedMantissa.shiftRightOne, h, ExtendedMantissa.mk.injEq, true_and,
      rest_ne_zero_iff]
    refine ⟨?_, decide_eq_decide.2 ⟨fun hf => ⟨?_, ?_⟩, fun hf => ?_⟩⟩
    · simp
      linarith
    · positivity
    · intro h
      push_cast at h
      exact hf (by linarith)
    · intro h
      exact hf.2 (by rw [h]; norm_num)

theorem shiftRight_extended {q : ℚ} (hq : 0 ≤ q) (n : Nat) :
    extended q >>> n = extended (q / 2 ^ n) := by
  change n.repeat ExtendedMantissa.shiftRightOne (extended q) = _
  induction n with
  | zero => simp [Nat.repeat]
  | succ n ih =>
    rw [Nat.repeat, ih, shiftRightOne_extended (by positivity), div_div, pow_succ]

/-! ## Exponents -/

theorem lt_two_zpow_iff {r : ℚ} (hr : 0 < r) {x : Int} : r < 2 ^ x ↔ Int.log 2 r < x := by
  exact_mod_cast Int.lt_zpow_iff_log_lt (R := ℚ) one_lt_two hr

theorem two_zpow_le_iff {r : ℚ} (hr : 0 < r) {x : Int} : 2 ^ x ≤ r ↔ x ≤ Int.log 2 r := by
  exact_mod_cast Int.zpow_le_iff_le_log (R := ℚ) one_lt_two hr

/-- The exponent of the binary64 values around `r`. -/
def scale (r : ℚ) : Int := max (Int.log 2 r - 52) (-1074)

theorem low_scale (r : ℚ) : -1074 ≤ scale r := le_max_right _ _

/-- A whole part that is not zero has as many bits as the number has above its exponent. -/
theorem log_floor {r : ℚ} (hr : 0 < r) {e : Int} (hm : ⌊r / 2 ^ e⌋₊ ≠ 0) :
    Int.log 2 r = ⌊r / 2 ^ e⌋₊.log2 + e := by
  have h2 : (0 : ℚ) < 2 ^ e := by positivity
  set m := ⌊r / 2 ^ e⌋₊ with hmdef
  obtain ⟨hle, hlt⟩ := (Nat.log2_eq_iff hm).1 rfl
  have hlow : (2 : ℚ) ^ ((m.log2 : Int) + e) ≤ r := by
    rw [zpow_add₀ two_ne_zero, zpow_natCast, ← le_div_iff₀ h2]
    exact le_trans (by exact_mod_cast hle) (Nat.floor_le (by positivity))
  have hhigh : r < (2 : ℚ) ^ ((m.log2 : Int) + 1 + e) := by
    rw [zpow_add₀ two_ne_zero, ← div_lt_iff₀ h2]
    refine (Nat.lt_floor_add_one _).trans_le ?_
    exact_mod_cast hlt
  rw [two_zpow_le_iff hr] at hlow
  rw [lt_two_zpow_iff hr] at hhigh
  omega

/-- The exponent that the format asks for is the scale of the number. -/
theorem targetExponent_floor {r : ℚ} (hr : 0 < r) {e : Int} (he : e ≤ scale r) :
    Format.binary64.targetExponent (totalExponent ⌊r / 2 ^ e⌋₊ e) = scale r := by
  have hmin : Format.binary64.minExponent = -1074 := by decide
  have hbits : Format.binary64.mantissaBits = 53 := by decide
  unfold Format.targetExponent totalExponent
  rw [hmin, hbits]
  by_cases hm : ⌊r / 2 ^ e⌋₊ = 0
  · have hlt : r < 2 ^ e := by
      have := Nat.floor_eq_zero.1 hm
      rwa [div_lt_one (by positivity)] at this
    rw [lt_two_zpow_iff hr] at hlt
    rw [hm, show Nat.log2 0 = 0 by decide]
    unfold scale at *
    omega
  · have := log_floor hr hm
    unfold scale
    omega

/-! ## Rounding -/

/-- The form of `m` units at exponent `e`. A mantissa that was rounded up to `2 ^ 53` loses its last
bit. -/
def carried (s : Sign) (m : Nat) (e : Int) : UnpackedFloat :=
  if h : m = 0 then .zero s
  else if m = 2 ^ 53 then .finite s (2 ^ 52) (e + 1) (by decide)
  else .finite s m e (Nat.pos_of_ne_zero h)

/-- The mantissa of the value nearest to `r`. -/
def roundedMantissa (r : ℚ) : Nat := (extended (r / 2 ^ scale r)).roundedMantissa

/-- The form of the value nearest to `r`, before its exponent is held against the largest one. -/
def rounded (s : Sign) (r : ℚ) : UnpackedFloat := carried s (roundedMantissa r) (scale r)

theorem roundedMantissa_extended (q : ℚ) :
    ⌊q⌋₊ ≤ (extended q).roundedMantissa ∧ (extended q).roundedMantissa ≤ ⌊q⌋₊ + 1 := by
  have h : (extended q).mantissa = ⌊q⌋₊ := rfl
  rw [← h]
  unfold ExtendedMantissa.roundedMantissa
  cases (extended q).accuracy with
  | exact => exact ⟨le_rfl, Nat.le_succ _⟩
  | inexact o => cases o <;> simp only [Accuracy.roundToNearestEven] <;> omega

theorem roundedMantissa_le {r : ℚ} (hr : 0 < r) : roundedMantissa r ≤ 2 ^ 53 := by
  refine (roundedMantissa_extended _).2.trans ?_
  have h : r < 2 ^ ((53 : Int) + scale r) := by
    rw [lt_two_zpow_iff hr]
    unfold scale
    omega
  rw [zpow_add₀ two_ne_zero, ← div_lt_iff₀ (by positivity)] at h
  exact (Nat.floor_lt (by positivity)).2 (by exact_mod_cast h)

theorem le_roundedMantissa {r : ℚ} (hr : 0 < r) (h : scale r ≠ -1074) :
    2 ^ 52 ≤ roundedMantissa r := by
  refine le_trans (Nat.le_floor ?_) (roundedMantissa_extended _).1
  have h : 2 ^ ((52 : Int) + scale r) ≤ r := by
    rw [two_zpow_le_iff hr]
    unfold scale at *
    omega
  rw [zpow_add₀ two_ne_zero, ← le_div_iff₀ (by positivity)] at h
  exact_mod_cast h

theorem shiftToTargetExponent_eq {r : ℚ} (hr : 0 < r) {m : Nat} {e : Int} {acc : Accuracy}
    (h : ExtendedMantissa.ofMantissaAndAccuracy m acc = extended (r / 2 ^ e)) (he : e ≤ scale r) :
    shiftToTargetExponent .binary64 m e acc = (extended (r / 2 ^ scale r), scale r) := by
  have hm : m = ⌊r / 2 ^ e⌋₊ := by
    have := congrArg ExtendedMantissa.mantissa h
    rw [show (extended (r / 2 ^ e)).mantissa = ⌊r / 2 ^ e⌋₊ from rfl] at this
    rw [← this]
    rcases acc with _ | (_ | _ | _) <;> rfl
  have hn : ((scale r - e).toNat : Int) = scale r - e := Int.toNat_of_nonneg (by omega)
  unfold shiftToTargetExponent shiftToExponent
  simp only [h]
  rw [hm, targetExponent_floor hr he, shiftRight_extended (by positivity), div_div,
    ← zpow_natCast, ← zpow_add₀ two_ne_zero, hn]
  simp

/-- A mantissa that was just rounded needs at most one more shift. -/
theorem carried_eq (s : Sign) {m : Nat} {e : Int} (hm : m ≤ 2 ^ 53) (hlow : -1074 ≤ e) :
    (let shifted := shiftToTargetExponent .binary64 m e .exact
      if h : shifted.1.mantissa = 0 then UnpackedFloat.zero s
      else .finite s shifted.1.mantissa shifted.2 (Nat.pos_of_ne_zero h)) = carried s m e := by
  have hmin : Format.binary64.minExponent = -1074 := by decide
  have hbits : Format.binary64.mantissaBits = 53 := by decide
  by_cases hfull : m = 2 ^ 53
  · subst hfull
    have hshift : (Format.binary64.targetExponent (totalExponent (2 ^ 53) e) - e).toNat = 1 := by
      unfold Format.targetExponent totalExponent
      rw [hmin, hbits, Nat.log2_two_pow]
      omega
    simp only [shiftToTargetExponent, shiftToExponent, hshift]
    rfl
  · have hlog : m.log2 ≤ 52 := by
      by_cases hzero : m = 0
      · subst hzero
        decide
      · have := (Nat.log2_lt hzero).2 (show m < 2 ^ 53 by omega)
        omega
    have hshift : (Format.binary64.targetExponent (totalExponent m e) - e).toNat = 0 := by
      unfold Format.targetExponent totalExponent
      rw [hmin, hbits]
      omega
    have hnone : ExtendedMantissa.ofMantissaAndAccuracy m .exact >>> 0 = ⟨m, false, false⟩ := rfl
    simp only [shiftToTargetExponent, shiftToExponent, hshift, hnone, carried, hfull, if_false,
      Nat.cast_zero, add_zero]

/-- Rounding a mantissa at an exponent rounds the number that they stand for. -/
theorem roundWithAccuracy_eq (s : Sign) {r : ℚ} (hr : 0 < r) {m : Nat} {e : Int} {acc : Accuracy}
    (h : ExtendedMantissa.ofMantissaAndAccuracy m acc = extended (r / 2 ^ e)) (he : e ≤ scale r) :
    roundWithAccuracy .binary64 s m e acc = rounded s r := by
  rw [rounded, ← carried_eq s (roundedMantissa_le hr) (low_scale r)]
  unfold roundWithAccuracy
  rw [shiftToTargetExponent_eq hr h he]
  rfl

/-- A rounded value is canonical unless its exponent is too large. -/
theorem proper_rounded (s : Sign) {r : ℚ} (hr : 0 < r) (h : scale r < 971) :
    Proper (rounded s r) := by
  have hle := roundedMantissa_le hr
  have hlow := low_scale r
  unfold rounded carried
  split
  · trivial
  · rename_i hzero
    split
    · exact ⟨by decide, by decide, by omega, by omega, .inr le_rfl⟩
    · refine ⟨Nat.pos_of_ne_zero hzero, by omega, hlow, by omega, ?_⟩
      exact or_iff_not_imp_left.2 (le_roundedMantissa hr)

/-- Rounding keeps the values of the format. -/
theorem rounded_canonical (s : Sign) {m : Nat} {e : Int} (h : Canonical m e) :
    rounded s (m * 2 ^ e) = .finite s m e h.pos := by
  obtain ⟨pos, lt, low, high, full⟩ := h
  have h2 : (0 : ℚ) < 2 ^ e := by positivity
  have hfloor : ⌊(m * 2 ^ e : ℚ) / 2 ^ e⌋₊ = m := by
    rw [mul_div_cancel_right₀ _ h2.ne', Nat.floor_natCast]
  have hlog : Int.log 2 (m * 2 ^ e : ℚ) = m.log2 + e := by
    have := log_floor (r := m * 2 ^ e) (e := e) (by positivity) (by rw [hfloor]; exact pos.ne')
    rwa [hfloor] at this
  have hscale : scale (m * 2 ^ e) = e := by
    have hlt := (Nat.log2_lt pos.ne').2 lt
    unfold scale
    rw [hlog]
    rcases full with rfl | full
    · omega
    · have := (Nat.le_log2 pos.ne').2 full
      omega
  have hmant : roundedMantissa (m * 2 ^ e) = m := by
    unfold roundedMantissa
    rw [hscale, mul_div_cancel_right₀ _ h2.ne', ← extended_natCast]
    rfl
  unfold rounded carried
  rw [hmant, hscale]
  simp only [pos.ne', lt.ne, dif_neg, if_false, not_false_eq_true]

/-! ## Out of range -/

theorem pack_of_large (s : Sign) {m : Nat} {e : Int} (hm : 0 < m) (h : 972 ≤ e) :
    UnpackedFloat.pack .binary64 (.finite s m e hm) = packedInfinity .binary64 s := by
  unfold UnpackedFloat.pack
  exact if_pos (show 2 ^ 11 ≤ (e + 1023 + 52).toNat + 1 by omega)

theorem pack_rounded_of_large (s : Sign) {r : ℚ} (hr : 0 < r) (h : 972 ≤ scale r) :
    UnpackedFloat.pack .binary64 (rounded s r) = packedInfinity .binary64 s := by
  have hm := le_roundedMantissa hr (by omega)
  unfold rounded carried
  rw [dif_neg (by omega)]
  split
  · exact pack_of_large s _ (by omega)
  · exact pack_of_large s _ h

theorem rounded_of_small (s : Sign) {r : ℚ} (hr : 0 < r) (h : r < 2 ^ (-1075 : Int)) :
    rounded s r = .zero s := by
  have hscale : scale r = -1074 := by
    have := (lt_two_zpow_iff hr).1 h
    unfold scale
    omega
  have hhalf : r / 2 ^ (-1074 : Int) < 1 / 2 := by
    rw [div_lt_iff₀ (by positivity)]
    refine h.trans_eq ?_
    rw [show (-1075 : Int) = -1 + -1074 by norm_num, zpow_add₀ two_ne_zero, zpow_neg_one, one_div]
  have hmant : roundedMantissa r = 0 := by
    have := extended_add 0 (f := r / 2 ^ (-1074 : Int)) (by positivity) (by linarith)
    rw [Nat.cast_zero, zero_add] at this
    unfold roundedMantissa
    rw [hscale, this, decide_eq_false (by linarith)]
    unfold ExtendedMantissa.roundedMantissa ExtendedMantissa.accuracy
    split <;> simp_all [Accuracy.roundToNearestEven]
  rw [rounded, hmant]
  rfl

/-! ## Decimals -/

theorem rounded_zero (s : Sign) : rounded s 0 = .zero s := by
  have hmant : roundedMantissa 0 = 0 := by
    have := extended_natCast 0
    unfold roundedMantissa
    rw [zero_div, ← Nat.cast_zero, ← this]
    rfl
  rw [rounded, hmant]
  rfl

theorem value_pos {d : Decimal} (h : d.digits ≠ 0) : 0 < d.value := by
  unfold value
  have : (0 : ℚ) < d.digits := by exact_mod_cast Nat.pos_of_ne_zero h
  positivity

theorem scale_value_of_large {d : Decimal} (hd : d.digits ≠ 0) (h : 2048 < d.exponent) :
    972 ≤ scale d.value := by
  have hle : (2 : ℚ) ^ (1024 : Int) ≤ d.value := by
    have hdigits : (1 : ℚ) ≤ d.digits := by exact_mod_cast Nat.pos_of_ne_zero hd
    calc (2 : ℚ) ^ (1024 : Int) ≤ 2 ^ d.exponent := zpow_le_zpow_right₀ one_le_two (by omega)
      _ ≤ 10 ^ d.exponent := zpow_le_zpow_left₀ (by omega) (by norm_num) (by norm_num)
      _ ≤ d.digits * 10 ^ d.exponent := le_mul_of_one_le_left (by positivity) hdigits
  rw [two_zpow_le_iff (value_pos hd)] at hle
  unfold scale
  omega

theorem value_lt_of_small {d : Decimal} (hd : d.digits ≠ 0)
    (h : d.exponent < -(2048 + (d.digits.log2 : Int))) : d.value < 2 ^ (-1075 : Int) := by
  have hdigits : (d.digits : ℚ) < 2 ^ ((d.digits.log2 : Int) + 1) := by
    exact_mod_cast ((Nat.log2_eq_iff hd).1 rfl).2
  have hpow : (10 : ℚ) ^ d.exponent ≤ 2 ^ d.exponent := by
    rw [← neg_neg d.exponent, zpow_neg, zpow_neg 2]
    exact inv_anti₀ (by positivity) (zpow_le_zpow_left₀ (by omega) (by norm_num) (by norm_num))
  calc d.digits * (10 : ℚ) ^ d.exponent
      ≤ d.digits * 2 ^ d.exponent := mul_le_mul_of_nonneg_left hpow (by positivity)
    _ < 2 ^ ((d.digits.log2 : Int) + 1) * 2 ^ d.exponent :=
      mul_lt_mul_of_pos_right hdigits (by positivity)
    _ = 2 ^ ((d.digits.log2 : Int) + 1 + d.exponent) := (zpow_add₀ two_ne_zero _ _).symm
    _ ≤ 2 ^ (-1075 : Int) := zpow_le_zpow_right₀ one_le_two (by omega)

/-- A decimal without places behind the point is a product. -/
theorem mul_eq_rounded {m : Nat} (hm : 0 < m) {e : Int} (he : 0 ≤ e) :
    roundWithAccuracy .binary64 .positive ((m <<< 53) * 10 ^ e.toNat) (-53) .exact =
      rounded .positive (value ⟨m, e⟩) := by
  have hpos := value_pos (d := ⟨m, e⟩) hm.ne'
  refine roundWithAccuracy_eq _ hpos ?_ ?_
  · rw [extended_natCast]
    congr 1
    unfold value
    rw [Nat.shiftLeft_eq, zpow_neg, div_inv_eq_mul, zpow_ofNat]
    push_cast
    rw [← zpow_natCast 10, Int.toNat_of_nonneg he]
    ring
  · have hone : (2 : ℚ) ^ (0 : Int) ≤ value ⟨m, e⟩ := by
      have hdigits : (1 : ℚ) ≤ m := by exact_mod_cast hm
      have hpow : (1 : ℚ) ≤ 10 ^ e := one_le_zpow₀ (by norm_num) he
      rw [zpow_zero]
      exact one_le_mul_of_one_le_of_one_le hdigits hpow
    rw [two_zpow_le_iff hpos] at hone
    unfold scale
    omega

theorem le_log_div {m n : Nat} (hm : 0 < m) (hn : 0 < n) :
    (m.log2 : Int) - n.log2 - 1 ≤ Int.log 2 (m / n : ℚ) := by
  have hm' : (2 : ℚ) ^ (m.log2 : Int) ≤ m := by
    exact_mod_cast ((Nat.log2_eq_iff hm.ne').1 rfl).1
  have hn' : (n : ℚ) ≤ 2 ^ ((n.log2 : Int) + 1) := by
    exact_mod_cast ((Nat.log2_eq_iff hn.ne').1 rfl).2.le
  have hm₀ : (0 : ℚ) < m := by exact_mod_cast hm
  have hn₀ : (0 : ℚ) < n := by exact_mod_cast hn
  rw [← two_zpow_le_iff (by positivity), le_div_iff₀ hn₀]
  calc (2 : ℚ) ^ ((m.log2 : Int) - n.log2 - 1) * n
      ≤ 2 ^ ((m.log2 : Int) - n.log2 - 1) * 2 ^ ((n.log2 : Int) + 1) :=
        mul_le_mul_of_nonneg_left hn' (by positivity)
    _ = 2 ^ (m.log2 : Int) := by rw [← zpow_add₀ two_ne_zero]; congr 1; omega
    _ ≤ m := hm'

/-- A quotient is computed with enough bits to round it. -/
theorem div_eq_rounded {m n : Nat} (hm : 0 < m) (hn : 0 < n) :
    UnpackedFloat.div .binary64 (.finite .positive m 0 hm) (.finite .positive n 0 hn) =
      rounded .positive (m / n) := by
  have hn₀ : (0 : ℚ) < n := by exact_mod_cast hn
  have hpos : (0 : ℚ) < m / n := by positivity
  have hlog := le_log_div hm hn
  have hmin : Format.binary64.minExponent = -1074 := by decide
  have hbits : Format.binary64.mantissaBits = 53 := by decide
  simp only [UnpackedFloat.div, divCore]
  generalize ht : min (0 - 0 : Int)
    (Format.binary64.targetExponent (totalExponent m 0 - totalExponent n 0)) = t
  have hneg : t ≤ 0 := by omega
  have hscale : t ≤ scale (m / n) := by
    unfold Format.targetExponent totalExponent at ht
    rw [hmin, hbits] at ht
    unfold scale
    omega
  refine roundWithAccuracy_eq _ hpos ?_ hscale
  rw [extended_div _ hn]
  congr 1
  have hshift : ((0 - t).toNat : Int) = -t := by omega
  rw [Nat.shiftLeft_eq]
  push_cast
  rw [← zpow_natCast 2, hshift, zpow_neg]
  field_simp

/-- Reading a decimal rounds its value. -/
theorem toFloat_eq (d : Decimal) :
    d.toFloat = .ofModel (.pack (rounded .positive d.value)) := by
  obtain ⟨m, e⟩ := d
  suffices h : UnpackedFloat.pack .binary64 (UnpackedFloat.ofScientific .binary64 m e) =
      UnpackedFloat.pack .binary64 (rounded .positive (value ⟨m, e⟩)) by
    unfold toFloat Float.Model.ofScientific Float.Model.pack
    simp only [h]
  have hbits : (2 : Int) ^ Format.binary64.exponentBits = 2048 := by decide
  unfold UnpackedFloat.ofScientific
  rw [hbits]
  by_cases hm : m = 0
  · rw [dif_pos hm, value, hm, Nat.cast_zero, zero_mul, rounded_zero]
  have hpos := value_pos (d := ⟨m, e⟩) hm
  rw [dif_neg hm]
  -- exponents out of range are not computed with
  split
  · rename_i hlarge
    exact (pack_rounded_of_large _ hpos (scale_value_of_large hm hlarge)).symm
  · split
    · rename_i hsmall
      rw [rounded_of_small _ hpos (value_lt_of_small hm hsmall)]
    · congr 1
      split
      · rename_i he
        exact mul_eq_rounded (Nat.pos_of_ne_zero hm) he
      · rename_i he
        have hval : value ⟨m, e⟩ = m / (10 ^ (-e).toNat : Nat) := by
          unfold value
          push_cast
          rw [← zpow_natCast 10, Int.toNat_of_nonneg (by omega), zpow_neg, div_inv_eq_mul]
        rw [hval]
        exact div_eq_rounded _ _

theorem toFloat_congr {d d' : Decimal} (h : d.value = d'.value) : d.toFloat = d'.toFloat := by
  rw [toFloat_eq, toFloat_eq, h]

theorem unpack_toFloat_of_canonical {d : Decimal} {m : Nat} {e : Int} (h : Canonical m e)
    (hd : d.value = m * 2 ^ e) : d.toFloat.toModel.unpack = .finite .positive m e h.pos := by
  rw [toFloat_eq, hd, rounded_canonical .positive h]
  exact unpack_ofModel_pack (u := .finite .positive m e h.pos) h

theorem isFinite_rounded (s : Sign) (r : ℚ) : (rounded s r).isFinite := by
  unfold rounded carried
  split
  · rfl
  · split <;> rfl

theorem isFinite_toFloat {d : Decimal} (h : d.value < 2 ^ (1000 : Int)) : d.toFloat.isFinite := by
  change d.toFloat.toModel.unpack.isFinite
  by_cases hd : d.digits = 0
  · have hval : d.value = 0 := by
      unfold value
      rw [hd, Nat.cast_zero, zero_mul]
    rw [toFloat_eq, hval, rounded_zero]
    rfl
  · have hpos := value_pos hd
    have hscale : scale d.value < 971 := by
      rw [lt_two_zpow_iff hpos] at h
      unfold scale
      omega
    rw [toFloat_eq, unpack_ofModel_pack (proper_rounded _ hpos hscale)]
    exact isFinite_rounded _ _

end Beamline.Decimal

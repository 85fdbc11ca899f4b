import Mathlib

/-!
# The bits of a binary64 value

* `Canonical m e` : the mantissas and exponents that a finite binary64 value can have;
* `unpack_pack`, `pack_unpack` : taking bits apart and putting them together are inverse to each
  other, on canonical values and on valid bits;
* `ofModel_pack_unpack`, `unpack_ofModel_pack` : the same for floats.
-/

namespace Beamline.Decimal

open Float.Model Float.Model.UnpackedFloat

/-- The mantissas and exponents of the finite binary64 values other than zero. -/
structure Canonical (m : Nat) (e : Int) : Prop where
  pos : 0 < m
  lt : m < 2 ^ 53
  low : -1074 ≤ e
  high : e ≤ 971
  full : e = -1074 ∨ 2 ^ 52 ≤ m

/-- The unpacked forms that binary64 values have. -/
def Proper : UnpackedFloat → Prop
  | .finite _ m e _ => Canonical m e
  | _ => True

/-! ## Components -/

theorem unpackSign_packComponents (s : Sign) (e : BitVec 11) (m : BitVec 52) :
    @unpackSign .binary64 (packComponents .binary64 s e m) = s.toBitVec := by
  apply BitVec.eq_of_getLsbD_eq
  intro i hi
  obtain rfl : i = 0 := by omega
  simp only [unpackSign, packComponents, BitVec.getLsbD_cast, BitVec.getLsbD_extractLsb,
    BitVec.getLsbD_append]
  simp

theorem ofBitVec_toBitVec (s : Sign) : Sign.ofBitVec s.toBitVec = s := by
  cases s <;> rfl

theorem toBitVec_ofBitVec (b : BitVec 1) : (Sign.ofBitVec b).toBitVec = b := by
  revert b
  decide

theorem packComponents_unpack (b : BitVec 64) :
    packComponents .binary64 (Sign.ofBitVec (@unpackSign .binary64 b))
      (@unpackExponent .binary64 b) (@unpackMantissa .binary64 b) = b := by
  rw [packComponents, toBitVec_ofBitVec]
  apply BitVec.eq_of_getLsbD_eq
  intro i hi
  have hi : i < 64 := hi
  simp only [unpackSign, unpackExponent, unpackMantissa, BitVec.getLsbD_append,
    BitVec.getLsbD_cast, BitVec.getLsbD_extractLsb]
  by_cases h₁ : i < 52
  · simp [h₁]
  · by_cases h₂ : i - 52 < 11
    · have h₃ : 52 + (i - 52) = i := by omega
      simp [h₁, h₂, h₃]
    · obtain rfl : i = 63 := by omega
      simp only [h₁, h₂, decide_false, if_false]
      exact (Bool.true_and _)

/-- The exponent that is stored for a canonical value. -/
theorem stored_exponent {m : Nat} {e : Int} (h : Canonical m e) :
    ∃ b : Nat, (e + 1023 + 52).toNat = b ∧ (b : Int) = e + 1075 ∧ 1 ≤ b ∧ b < 2047 := by
  obtain ⟨-, -, low, high, -⟩ := h
  exact ⟨_, rfl, by omega, by omega, by omega⟩

/-- The stored forms of a value with all 53 bits and of one with fewer. -/
theorem pack_finite {s : Sign} {m : Nat} {e : Int} (h : Canonical m e) :
    UnpackedFloat.pack .binary64 (.finite s m e h.pos) =
      if 2 ^ 52 ≤ m then
        packComponents .binary64 s (BitVec.ofNat 11 (e + 1075).toNat) (BitVec.ofNat 52 m)
      else packComponents .binary64 s 0#11 (BitVec.ofNat 52 m) := by
  obtain ⟨b, hb, hbe, hb₁, hb₂⟩ := stored_exponent h
  have hsmall : ¬ (2 ^ 11 ≤ b + 1) := by omega
  have hfull : m.log2 + 1 = 53 ↔ 2 ^ 52 ≤ m := by
    rw [show m.log2 + 1 = 53 ↔ m.log2 = 52 by omega, Nat.log2_eq_iff h.pos.ne']
    exact ⟨fun hm => hm.1, fun hm => ⟨hm, h.lt⟩⟩
  have hb' : (e + 1075).toNat = b := by omega
  unfold UnpackedFloat.pack
  change (if 2 ^ 11 ≤ (e + 1023 + 52).toNat + 1 then _ else if m.log2 + 1 = 53 then _ else _) = _
  rw [hb, if_neg hsmall, hb']
  simp only [hfull]
  congr

theorem toNat_one_append (m : BitVec 52) : (1#1 ++ m).toNat = 2 ^ 52 + m.toNat := by
  rw [BitVec.toNat_append, ← Nat.shiftLeft_add_eq_or_of_lt m.isLt]
  rfl

theorem unpack_packComponents (s : Sign) (e : BitVec 11) (m : BitVec 52) :
    UnpackedFloat.unpack .binary64 (packComponents .binary64 s e m) =
      if e = -1#11 then if m = 0#52 then .infinity s else .notANumber
      else if e = 0#11 then
        if h : m = 0#52 then .zero s
        else .finite s m.toNat (-1074) (by simpa [BitVec.toNat_pos, BitVec.pos_iff_ne_zero])
      else .finite s (1#1 ++ m).toNat (e.toNat - 1075) (by rw [toNat_one_append]; omega) := by
  unfold UnpackedFloat.unpack
  simp only [unpackMantissa_packComponents, unpackExponent_packComponents,
    unpackSign_packComponents, ofBitVec_toBitVec]
  split
  · rfl
  · split
    · rename_i h
      subst h
      rfl
    · rfl

theorem unpack_pack {u : UnpackedFloat} (h : Proper u) :
    UnpackedFloat.unpack .binary64 (UnpackedFloat.pack .binary64 u) = u := by
  cases u with
  | infinity s => cases s <;> rfl
  | notANumber => rfl
  | zero s => cases s <;> rfl
  | finite s m e pos =>
    obtain ⟨b, hb, hbe, hb₁, hb₂⟩ := stored_exponent h
    have hb' : (e + 1075).toNat = b := by omega
    rw [pack_finite h, hb']
    by_cases hm : 2 ^ 52 ≤ m
    · have hmant : (1#1 ++ BitVec.ofNat 52 m).toNat = m := by
        have := h.lt
        rw [toNat_one_append, BitVec.toNat_ofNat]
        omega
      have hexp : (BitVec.ofNat 11 b).toNat = b := by
        rw [BitVec.toNat_ofNat]
        omega
      have hones : BitVec.ofNat 11 b ≠ -1#11 := by
        intro heq
        have := congrArg BitVec.toNat heq
        rw [hexp] at this
        simp at this
        omega
      have hzero : BitVec.ofNat 11 b ≠ 0#11 := by
        intro heq
        have := congrArg BitVec.toNat heq
        rw [hexp] at this
        simp at this
        omega
      rw [if_pos hm, unpack_packComponents, if_neg hones, if_neg hzero]
      simp only [hmant, hexp]
      congr 1
      omega
    · have hmant : (BitVec.ofNat 52 m).toNat = m := by
        rw [BitVec.toNat_ofNat]
        omega
      have hzero : BitVec.ofNat 52 m ≠ 0#52 := by
        intro heq
        have := congrArg BitVec.toNat heq
        rw [hmant] at this
        simp at this
        omega
      have he : e = -1074 := h.full.resolve_right hm
      rw [if_neg hm, unpack_packComponents, if_neg (by decide), if_pos rfl, dif_neg hzero]
      simp only [hmant, he]

theorem proper_unpack (b : BitVec 64) : Proper (UnpackedFloat.unpack .binary64 b) := by
  rw [← packComponents_unpack b, unpack_packComponents]
  generalize @unpackExponent .binary64 b = e
  generalize @unpackMantissa .binary64 b = m
  change BitVec 11 at e
  change BitVec 52 at m
  have hm := m.isLt
  have he := e.isLt
  split
  · split <;> trivial
  · rename_i hones
    split
    · split
      · trivial
      · rename_i hzero
        have hpos : m.toNat ≠ 0 := fun h => hzero (BitVec.eq_of_toNat_eq h)
        exact ⟨by omega, by omega, by decide, by decide, .inl rfl⟩
    · rename_i hzero
      have hpos : e.toNat ≠ 0 := fun h => hzero (BitVec.eq_of_toNat_eq h)
      have hlast : e.toNat ≠ 2047 := fun h => hones (BitVec.eq_of_toNat_eq h)
      refine ⟨?_, ?_, by omega, by omega, .inr ?_⟩ <;> rw [toNat_one_append] <;> omega

theorem pack_unpack {b : BitVec 64} (hb : Format.binary64.Valid b) :
    UnpackedFloat.pack .binary64 (UnpackedFloat.unpack .binary64 b) = b := by
  have hnan := hb.eq_packedNaN
  have hp := proper_unpack b
  have hparts := packComponents_unpack b
  rw [← hparts, unpack_packComponents] at hp ⊢
  generalize Sign.ofBitVec (@unpackSign .binary64 b) = s at hp hparts ⊢
  generalize @unpackExponent .binary64 b = e at hp hnan hparts ⊢
  generalize @unpackMantissa .binary64 b = m at hp hnan hparts ⊢
  change BitVec 11 at e
  change BitVec 52 at m
  have hm := m.isLt
  split at hp
  · -- infinities and what is not a number
    rename_i hones
    subst hones
    rw [if_pos rfl]
    split
    · rename_i hzero
      subst hzero
      rfl
    · rename_i hzero
      rw [hparts]
      exact (hnan rfl hzero).symm
  · rename_i hones
    rw [if_neg hones]
    split at hp
    · -- zeros and values with fewer than 53 bits
      rename_i hzero
      subst hzero
      rw [if_pos rfl]
      split
      · rename_i hzero
        subst hzero
        rfl
      · rename_i hzero
        rw [dif_neg hzero] at hp
        rw [pack_finite hp, if_neg (by omega), BitVec.ofNat_toNat, BitVec.setWidth_eq]
    · rename_i hzero
      rw [if_neg hzero, pack_finite hp, toNat_one_append, if_pos (by omega)]
      have hexp : ((e.toNat : Int) - 1075 + 1075).toNat = e.toNat := by omega
      have hmant : BitVec.ofNat 52 (2 ^ 52 + m.toNat) = m := by
        apply BitVec.eq_of_toNat_eq
        rw [BitVec.toNat_ofNat]
        omega
      rw [hexp, hmant, BitVec.ofNat_toNat, BitVec.setWidth_eq]

/-! ## Floats -/

theorem ofModel_pack_unpack (x : Float) : Float.ofModel (.pack x.toModel.unpack) = x := by
  obtain ⟨⟨b, hb⟩⟩ := x
  have h : UInt64.ofBitVec
      (UnpackedFloat.pack .binary64 (UnpackedFloat.unpack .binary64 b.toBitVec)) = b := by
    rw [pack_unpack hb]
  simp only [Float.Model.pack, Float.Model.unpack, h]

theorem unpack_ofModel_pack {u : UnpackedFloat} (h : Proper u) :
    (Float.ofModel (.pack u)).toModel.unpack = u :=
  unpack_pack h

theorem proper_toModel_unpack (x : Float) : Proper x.toModel.unpack :=
  proper_unpack _

/-- A float is given by its unpacked form. -/
theorem eq_of_unpack_eq {x y : Float} (h : x.toModel.unpack = y.toModel.unpack) : x = y := by
  rw [← ofModel_pack_unpack x, h, ofModel_pack_unpack y]

theorem Proper.neg {u : UnpackedFloat} (h : Proper u) : Proper u.neg := by
  cases u <;> exact h

theorem Proper.abs {u : UnpackedFloat} (h : Proper u) : Proper u.abs := by
  cases u <;> exact h

theorem unpack_neg (x : Float) : (-x).toModel.unpack = x.toModel.unpack.neg :=
  unpack_ofModel_pack (proper_toModel_unpack x).neg

theorem unpack_abs (x : Float) : x.abs.toModel.unpack = x.toModel.unpack.abs :=
  unpack_ofModel_pack (proper_toModel_unpack x).abs

/-- A finite float is equal to itself, as no other number is needed to tell. -/
theorem beq_self_of_isFinite {x : Float} (h : x.isFinite) : (x == x) = true := by
  change x.toModel.unpack.isFinite at h
  change x.toModel.unpack.beq x.toModel.unpack = true
  unfold UnpackedFloat.beq
  cases hu : x.toModel.unpack with
  | infinity sign => rw [hu] at h; cases h
  | notANumber => rw [hu] at h; cases h
  | zero sign => rfl
  | finite sign m e hm => cases sign <;> simp [UnpackedFloat.compare]

theorem isFinite_neg (x : Float) : (-x).isFinite = x.isFinite := by
  change (-x).toModel.unpack.isFinite = x.toModel.unpack.isFinite
  rw [unpack_neg]
  cases x.toModel.unpack <;> rfl

theorem isFinite_abs (x : Float) : x.abs.isFinite = x.isFinite := by
  change x.abs.toModel.unpack.isFinite = x.toModel.unpack.isFinite
  rw [unpack_abs]
  cases x.toModel.unpack <;> rfl

theorem abs_abs (x : Float) : x.abs.abs = x.abs := by
  apply eq_of_unpack_eq
  rw [unpack_abs, unpack_abs]
  cases x.toModel.unpack <;> rfl

end Beamline.Decimal

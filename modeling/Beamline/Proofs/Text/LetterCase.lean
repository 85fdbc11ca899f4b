import Beamline.Text.Blank
import Mathlib

/-!
# Letters in upper case

* `Caseless` : tests that do not tell a letter from its upper case, `caseless_of_letters` those that
  no letter passes;
* `eq_of_toUpper_eq` : characters that are no letters have no other case;
* `trim_upper` : what is cut off a text by such tests does not depend on the case of its letters.
-/

namespace Beamline.Text

variable {p : Char → Bool} {c d : Char}

/-- A test that does not depend on the case of letters. -/
def Caseless (p : Char → Bool) : Prop :=
  ∀ c : Char, p c.toUpper = p c

theorem Caseless.congr (hp : Caseless p) (h : c.toUpper = d.toUpper) : p c = p d := by
  rw [← hp c, h, hp d]

theorem caseless_isAlpha : Caseless Char.isAlpha :=
  Char.isAlpha_toUpper_eq_isAlpha

theorem isAlpha_of_isLower (h : c.isLower) : c.isAlpha := by
  rw [Char.isAlpha, h, Bool.or_true]

/-- A test that no letter passes does not depend on their case. -/
theorem caseless_of_letters (h : ∀ c : Char, c.isAlpha → p c = false) : Caseless p := by
  intro c
  by_cases hlower : c.isLower
  · have hc := isAlpha_of_isLower hlower
    rw [h c hc, h c.toUpper (by rwa [caseless_isAlpha])]
  · rw [Char.toUpper_eq_of_not_isLower hlower]

/-- The letters as numbers. -/
theorem toNat_of_isAlpha (h : c.isAlpha) :
    0x41 ≤ c.toNat ∧ c.toNat ≤ 0x5a ∨ 0x61 ≤ c.toNat ∧ c.toNat ≤ 0x7a := by
  simpa [Char.isAlpha, Char.isUpper, Char.isLower, UInt32.le_iff_toNat_le] using h

theorem not_isBlank_of_isAlpha (h : c.isAlpha) : ¬ isBlank c := by
  have hnat := toNat_of_isAlpha h
  rw [isBlank]
  simp only [Bool.or_eq_true, Bool.and_eq_true, decide_eq_true_eq, beq_iff_eq]
  omega

theorem caseless_isBlank : Caseless isBlank :=
  caseless_of_letters fun _ hc => Bool.eq_false_of_not_eq_true (not_isBlank_of_isAlpha hc)

theorem caseless_isGap : Caseless isGap :=
  caseless_of_letters fun _ hc => Bool.eq_false_of_not_eq_true fun hgap =>
    not_isBlank_of_isAlpha hc (isBlank_of_isGap hgap)

theorem isDigit_of_isAlpha (h : c.isAlpha) : c.isDigit = false := by
  have hnat := toNat_of_isAlpha h
  have hlow : '0'.val.toNat = 0x30 := rfl
  have hhigh : '9'.val.toNat = 0x39 := rfl
  have hc : c.toNat = c.val.toNat := rfl
  rw [← Bool.not_eq_true, Char.isDigit]
  simp only [Bool.and_eq_true, decide_eq_true_eq, ge_iff_le, UInt32.le_iff_toNat_le]
  omega

theorem caseless_isDigit : Caseless Char.isDigit :=
  caseless_of_letters fun _ => isDigit_of_isAlpha

theorem caseless_isAlphanum : Caseless Char.isAlphanum := by
  intro c
  rw [Char.isAlphanum, Char.isAlphanum, caseless_isAlpha, caseless_isDigit]

theorem caseless_beq {k : Char} (hk : k.isAlpha = false) : Caseless (· == k) := by
  refine caseless_of_letters fun c hc => beq_eq_false_iff_ne.2 ?_
  rintro rfl
  rw [hc] at hk
  cases hk

/-- A letter in one case or the other. -/
theorem caseless_letter {k : Char} (hk : k.isLower) : Caseless fun c => c = k || c = k.toUpper := by
  have hlower (c : Char) : c = k ∨ c = k.toUpper ↔ c.toLower = k := by
    have hself : k.toLower = k :=
      Char.toLower_eq_of_not_isUpper (Char.not_isUpper_of_isLower hk)
    constructor
    · rintro (rfl | rfl)
      · exact hself
      · rw [Char.toLower_toUpper_eq_toLower, hself]
    · intro h
      by_cases hupper : c.isUpper
      · have hc := Char.toUpper_eq_of_not_isLower (Char.not_isLower_of_isUpper hupper)
        rw [← hc, ← Char.toUpper_toLower_eq_toUpper, h]
        exact .inr rfl
      · exact .inl ((Char.toLower_eq_of_not_isUpper hupper).symm.trans h)
  intro c
  rw [Bool.eq_iff_iff]
  simp only [Bool.or_eq_true, decide_eq_true_eq]
  rw [hlower, hlower, Char.toLower_toUpper_eq_toLower]

theorem toUpper_eq_iff {k : Char} (hk : k.isAlpha = false) : c.toUpper = k ↔ c = k := by
  have hbeq : (c.toUpper == k) = (c == k) := caseless_beq hk c
  rw [← beq_iff_eq, hbeq, beq_iff_eq]

/-- Characters that differ in their case only are letters. -/
theorem eq_of_toUpper_eq (hc : c.isAlpha = false) (h : c.toUpper = d.toUpper) : d = c := by
  have hupper : c.toUpper = c := (toUpper_eq_iff hc).2 rfl
  rw [hupper] at h
  exact (toUpper_eq_iff hc).1 h.symm

/-! ## Texts -/

theorem upper_nil : upper [] = [] :=
  rfl

theorem upper_cons (c : Char) (cs : List Char) : upper (c :: cs) = c.toUpper :: upper cs :=
  rfl

theorem upper_eq_cons {k : Char} (hk : k.isAlpha = false) {cs ds : List Char} :
    upper cs = k :: ds ↔ ∃ rest, cs = k :: rest ∧ upper rest = ds := by
  constructor
  · intro h
    cases cs with
    | nil => cases h
    | cons c cs =>
      obtain ⟨hc, hcs⟩ := List.cons.inj h
      cases (toUpper_eq_iff hk).1 hc
      exact ⟨cs, rfl, hcs⟩
  · rintro ⟨rest, rfl, rfl⟩
    rw [upper_cons, (toUpper_eq_iff hk).2 rfl]

theorem takeWhile_upper (hp : Caseless p) (cs : List Char) :
    (upper cs).takeWhile p = upper (cs.takeWhile p) := by
  rw [upper, List.takeWhile_map]
  exact congrArg (fun q => upper (cs.takeWhile q)) (funext hp)

theorem dropWhile_upper (hp : Caseless p) (cs : List Char) :
    (upper cs).dropWhile p = upper (cs.dropWhile p) := by
  rw [upper, List.dropWhile_map]
  exact congrArg (fun q => upper (cs.dropWhile q)) (funext hp)

theorem trim_upper (cs : List Char) : trim (upper cs) = upper (trim cs) := by
  rw [trim, trimStart, dropWhile_upper caseless_isBlank, trimEnd, upper, ← List.map_reverse]
  show ((upper _).dropWhile isBlank).reverse = _
  rw [dropWhile_upper caseless_isBlank, upper, ← List.map_reverse]
  rfl

theorem length_eq_of_upper_eq {cs ds : List Char} (h : upper cs = upper ds) :
    cs.length = ds.length := by
  simpa [upper] using congrArg List.length h

end Beamline.Text

import Beamline.Proofs.Decimal.Numeral
import Beamline.Proofs.Text.Gap
import Beamline.Version

/-!
# Reading and writing versions

* `Version.Spelled` : a text is a spelling of a version;
* `Version.parse?_eq_some_iff` : the version that is read is the one the text spells;
* `Version.parse?_text` : a written version is read back.
-/

namespace Beamline

open Decimal Text

/-- ASCII digits of a number below `2 ^ 32`. -/
structure Version.Digits (ds : List Char) (n : Nat) : Prop where
  ne_nil : ds ≠ []
  digits : ∀ c ∈ ds, c.isDigit
  value : natOfDigits ds = n
  lt : n < 2 ^ 32

/-- A text whose trimmed form is digits, a dot and digits: the numbers of a version. -/
def Version.Spelled (text : String) (v : Version) : Prop :=
  ∃ major minor, trim text.toList = major ++ '.' :: minor ∧
    Digits major v.major ∧ Digits minor v.minor

namespace Version

theorem number?_eq_some_iff {ds : List Char} {n : Nat} : number? ds = some n ↔ Digits ds n := by
  unfold number? natBelow?
  dsimp only
  split
  · rename_i h
    rw [Bool.or_eq_true, Bool.or_eq_true, List.isEmpty_iff, Bool.not_eq_true',
      decide_eq_true_eq] at h
    refine ⟨fun h => (by cases h), fun hd => ?_⟩
    rcases h with (h | h) | h
    · exact absurd h hd.ne_nil
    · exact absurd (List.all_eq_true.2 hd.digits) (by simp [h])
    · have := hd.value
      have := hd.lt
      omega
  · rename_i h
    simp only [Bool.or_eq_true, List.isEmpty_iff, Bool.not_eq_true', decide_eq_true_eq, not_or,
      Bool.not_eq_false, List.all_eq_true, Nat.not_le] at h
    constructor
    · intro heq
      cases heq
      exact ⟨h.1.1, h.1.2, rfl, h.2⟩
    · intro hd
      rw [hd.value]

theorem ne_dot_of_digits {ds : List Char} {n : Nat} (h : Digits ds n) :
    ∀ c ∈ ds, (c != '.') = true := by
  intro c hc
  exact bne_iff_ne.2 (ne_of_test (h.digits c hc) (by decide))

/-- The version that is read is the one that the text spells. -/
theorem parse?_eq_some_iff {text : String} {v : Version} :
    parse? text = some v ↔ Spelled text v := by
  unfold parse? Spelled
  generalize trim text.toList = cs
  dsimp only
  constructor
  · intro h
    have hsplit := List.takeWhile_append_dropWhile (p := (· != '.')) (l := cs)
    split at h
    · rename_i dot minor hdrop
      have hdot : dot = '.' := by
        have := List.head?_dropWhile_not (· != '.') cs
        rw [hdrop] at this
        simpa using this
      simp only [Option.bind_eq_bind, Option.bind_eq_some_iff, Option.pure_def,
        Option.some.injEq] at h
      obtain ⟨major, hmajor, minor', hminor, rfl⟩ := h
      refine ⟨_, minor, ?_, number?_eq_some_iff.1 hmajor, number?_eq_some_iff.1 hminor⟩
      subst hdot
      rw [← hdrop, hsplit]
    · cases h
  · rintro ⟨major, minor, rfl, hmajor, hminor⟩
    have hstop : ∀ c ∈ ('.' :: minor).head?, (c != '.') = false := by simp
    rw [takeWhile_append_stop (ne_dot_of_digits hmajor) hstop,
      dropWhile_append_stop (ne_dot_of_digits hmajor) hstop]
    dsimp only
    rw [number?_eq_some_iff.2 hmajor, number?_eq_some_iff.2 hminor]
    rfl

theorem isBlank_of_isDigit {c : Char} (h : c.isDigit) : isBlank c = false := by
  simp only [Char.isDigit, Bool.and_eq_true, decide_eq_true_eq] at h
  have h1 : 48 ≤ c.toNat := h.1
  have h2 : c.toNat ≤ 57 := h.2
  simp only [isBlank, Bool.or_eq_false_iff, Bool.and_eq_false_iff, beq_eq_false_iff_ne,
    decide_eq_false_iff_not]
  omega

theorem digits_digitsOfNat {n : Nat} (h : n < 2 ^ 32) : Digits (digitsOfNat n) n :=
  ⟨digitsOfNat_ne_nil n, fun _ hc => isDigit_of_mem_digitsOfNat hc, natOfDigits_digitsOfNat n, h⟩

theorem parse?_text {v : Version} (hmajor : v.major < 2 ^ 32) (hminor : v.minor < 2 ^ 32) :
    parse? v.text = some v := by
  rw [parse?_eq_some_iff]
  refine ⟨_, _, ?_, digits_digitsOfNat hmajor, digits_digitsOfNat hminor⟩
  unfold text
  rw [String.toList_ofList]
  refine trim_eq_self (fun c hc => isBlank_of_isDigit ?_) (fun c hc => isBlank_of_isDigit ?_)
  · rw [List.head?_append_of_ne_nil _ (digitsOfNat_ne_nil v.major)] at hc
    exact isDigit_of_mem_digitsOfNat (List.mem_of_mem_head? hc)
  · rw [← List.singleton_append, ← List.append_assoc,
      List.getLast?_append_of_ne_nil _ (digitsOfNat_ne_nil v.minor)] at hc
    exact isDigit_of_mem_digitsOfNat (List.mem_of_getLast? hc)

end Version

end Beamline

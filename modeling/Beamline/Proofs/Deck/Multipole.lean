import Beamline.Deck.Session
import Beamline.Deck.Writer
import Beamline.Proofs.Decimal.Rounding
import Beamline.Proofs.Document.Order

/-!
# Multipoles of one order

elegant writes a multipole as one strength and its order, and reads the order as a number.

* `Deck.isSome_singleOrder?` : which multipoles it can write;
* `Deck.Alone`, `Deck.Alone.strength_oneOrder` : what is written stands for all strengths of the
  multipole;
* `Body.kept`, `Element.kept`, `Document.kept` : what a deck keeps of the parameters;
* `Session.natural?_toFloat` : the order is read as it was written.
-/

namespace Beamline

/-- The strength at an order. An entry that is absent is zero, and both zeros are the same. -/
def strength (knl : List Float) (n : Nat) : Float :=
  if knl.getD n 0 == 0 then 0 else knl.getD n 0

/-- A multipole has at most one strength that is not zero, and no skew one. -/
def Body.OneOrder : Body → Prop
  | .multipole knl ksl => knl.countP (· != 0) ≤ 1 ∧ ∀ k ∈ ksl.getD [], (k == 0) = true
  | _ => True

instance (b : Body) : Decidable b.OneOrder :=
  match b with
  | .multipole knl ksl => inferInstanceAs
      (Decidable (knl.countP (· != 0) ≤ 1 ∧ ∀ k ∈ ksl.getD [], (k == 0) = true))
  | .drift .. | .dipole .. | .quadrupole .. | .sextupole .. | .octupole .. | .solenoid ..
  | .cavity .. | .kicker .. | .monitor .. | .marker => inferInstanceAs (Decidable True)

namespace Deck

theorem zero_bne_zero : ((0 : Float) != 0) = false := rfl

/-! ## The strengths that are not zero -/

theorem mem_nonzero {knl : List Float} {n : Nat} {k : Float} :
    (n, k) ∈ nonzero knl ↔ knl[n]? = some k ∧ (k != 0) = true := by
  unfold nonzero
  simp [List.mem_zipIdx_iff_getElem?]

theorem length_nonzero (knl : List Float) : (nonzero knl).length = knl.countP (· != 0) := by
  unfold nonzero
  conv_rhs => rw [← List.zipIdx_map_fst 0 knl, List.countP_map]
  rw [List.length_map, ← List.countP_eq_length_filter]
  rfl

/-- The writer takes the multipoles that have one order. -/
theorem isSome_singleOrder? {knl : List Float} {ksl : Option (List Float)} :
    (singleOrder? knl ksl).isSome ↔ (Body.multipole knl ksl).OneOrder := by
  have hskew : ksl.any (·.any (· != 0)) = false ↔ ∀ k ∈ ksl.getD [], (k == 0) = true := by
    cases ksl <;> simp [bne]
  show _ ↔ knl.countP (· != 0) ≤ 1 ∧ ∀ k ∈ ksl.getD [], (k == 0) = true
  rw [← hskew, ← length_nonzero, singleOrder?]
  cases ksl.any (·.any (· != 0)) with
  | true => simp
  | false =>
    rw [if_neg Bool.false_ne_true]
    match nonzero knl with
    | [] => simp
    | [k] => simp
    | _ :: _ :: _ => simp

/-- `k` at order `n` stands for all strengths of a multipole. It is the only one that is not zero,
or it is zero and stands at order zero, as all others are zero too. -/
structure Alone (knl : List Float) (n : Nat) (k : Float) : Prop where
  others : ∀ m x, knl[m]? = some x → (x != 0) = true → m = n ∧ x = k
  here : (k != 0) = true ∧ knl[n]? = some k ∨ k = 0 ∧ n = 0

theorem alone_of_singleOrder? {knl : List Float} {ksl : Option (List Float)} {n : Nat} {k : Float}
    (h : singleOrder? knl ksl = some (n, k)) : Alone knl n k := by
  unfold singleOrder? at h
  split at h
  · cases h
  · have hmem : ∀ m x, knl[m]? = some x → (x != 0) = true → (m, x) ∈ nonzero knl :=
      fun m x hx hne => mem_nonzero.2 ⟨hx, hne⟩
    split at h
    · rename_i hnil
      cases h
      rw [hnil] at hmem
      exact ⟨fun m x hx hne => absurd (hmem m x hx hne) List.not_mem_nil, .inr ⟨rfl, rfl⟩⟩
    · rename_i hone
      cases h
      have hhere := mem_nonzero.1 (hone ▸ List.mem_singleton_self (n, k))
      refine ⟨fun m x hx hne => ?_, .inl hhere.symm⟩
      have := hmem m x hx hne
      rw [hone, List.mem_singleton] at this
      exact ⟨congrArg Prod.fst this, congrArg Prod.snd this⟩
    · cases h

/-! ## The list with one strength -/

/-- The strength `k` at order `n`, and zeros below. -/
def oneOrder (n : Nat) (k : Float) : List Float :=
  List.replicate n 0 ++ [k]

theorem nonzero_oneOrder (n : Nat) (k : Float) :
    nonzero (oneOrder n k) = if k != 0 then [(n, k)] else [] := by
  have hzeros : (List.replicate n (0 : Float)).zipIdx.filter (fun k => k.1 != 0) = [] := by
    rw [List.filter_eq_nil_iff]
    intro x hx
    have hmem := List.mem_map_of_mem (f := Prod.fst) hx
    rw [List.zipIdx_map_fst] at hmem
    rw [List.eq_of_mem_replicate hmem, zero_bne_zero]
    exact Bool.false_ne_true
  unfold nonzero oneOrder
  rw [List.zipIdx_append, List.filter_append, hzeros, List.nil_append, List.length_replicate,
    Nat.zero_add, List.zipIdx_singleton, List.filter_singleton]
  cases k != 0 <;> rfl

theorem strength_eq_zero {knl : List Float} {m : Nat}
    (h : ∀ x, knl[m]? = some x → (x == 0) = true) : strength knl m = 0 := by
  rw [strength, List.getD_eq_getElem?_getD]
  cases hm : knl[m]? with
  | none => exact ite_self _
  | some x => exact if_pos (h x hm)

namespace Alone

variable {knl : List Float} {n : Nat} {k : Float}

/-- The list with the one strength has it at its order. -/
theorem singleOrder?_oneOrder (h : Alone knl n k) :
    singleOrder? (oneOrder n k) none = some (n, k) := by
  rw [singleOrder?, if_neg (by simp), nonzero_oneOrder]
  rcases h.here with ⟨hk, -⟩ | ⟨rfl, rfl⟩
  · rw [if_pos hk]
  · rw [zero_bne_zero]
    rfl

theorem strength_away (h : Alone knl n k) {m : Nat} (hm : m ≠ n) : strength knl m = 0 := by
  apply strength_eq_zero
  intro x hx
  by_contra hne
  exact hm (h.others m x hx (by simpa [bne] using hne)).1

theorem strength_here (h : Alone knl n k) : strength knl n = k := by
  rcases h.here with ⟨hk, hget⟩ | ⟨rfl, rfl⟩
  · have hne : ¬ (k == 0) = true := by simpa [bne] using hk
    rw [strength, List.getD_eq_getElem?_getD, hget, Option.getD_some, if_neg hne]
  · apply strength_eq_zero
    intro x hx
    by_contra hne
    -- the strength is zero after all, as it is the one that stands alone
    obtain rfl := (h.others 0 x hx (by simpa [bne] using hne)).2
    exact hne rfl

/-- The list with the one strength has the same strength at every order. -/
theorem strength_oneOrder (h : Alone knl n k) (m : Nat) :
    strength (oneOrder n k) m = strength knl m := by
  have hone := alone_of_singleOrder? h.singleOrder?_oneOrder
  by_cases hm : m = n
  · rw [hm, hone.strength_here, h.strength_here]
  · rw [hone.strength_away hm, h.strength_away hm]

theorem isFinite (h : Alone knl n k) (hknl : ∀ x ∈ knl, x.isFinite) :
    ∀ x ∈ oneOrder n k, x.isFinite := by
  have hzero : (0 : Float).isFinite := rfl
  intro x hx
  rcases List.mem_append.1 hx with hx | hx
  · rw [List.eq_of_mem_replicate hx]
    exact hzero
  · obtain rfl := List.mem_singleton.1 hx
    rcases h.here with ⟨-, hk⟩ | ⟨rfl, -⟩
    · exact hknl x (List.mem_of_getElem? hk)
    · exact hzero

theorem order_lt (h : Alone knl n k) {room : Nat} (hpos : 0 < room)
    (hroom : knl.length ≤ room) : n < room := by
  rcases h.here with ⟨-, hk⟩ | ⟨-, rfl⟩
  · exact (List.getElem?_eq_some_iff.1 hk).1.trans_le hroom
  · exact hpos

end Alone

end Deck

/-! ## What a deck keeps -/

open Deck

/-- What a deck keeps of a body. elegant keeps of a multipole its one strength. -/
def Body.kept (dl : Dialect) (b : Body) : Body :=
  match dl, b with
  | .elegant, .multipole knl ksl =>
    match singleOrder? knl ksl with
    | some (n, k) => .multipole (oneOrder n k) none
    | none => b
  | _, b => b

theorem Body.kept_multipole {knl : List Float} {ksl : Option (List Float)} {n : Nat} {k : Float}
    (h : singleOrder? knl ksl = some (n, k)) :
    (Body.multipole knl ksl).kept .elegant = .multipole (oneOrder n k) none := by
  simp only [kept, h]

/-- A body is kept as it is, or it is a multipole of one order in elegant. -/
theorem Body.kept_cases (dl : Dialect) (b : Body) : b.kept dl = b ∨
    ∃ knl ksl n k, dl = .elegant ∧ b = .multipole knl ksl ∧ singleOrder? knl ksl = some (n, k) := by
  unfold kept
  split
  · rename_i knl ksl
    cases h : singleOrder? knl ksl with
    | none => exact .inl rfl
    | some k => exact .inr ⟨knl, ksl, k.1, k.2, rfl, rfl, h⟩
  · exact .inl rfl

/-- What a deck keeps of an element. -/
def Element.kept (dl : Dialect) (e : Element) : Element :=
  { e with body := e.body.kept dl }

theorem Element.Lawful.kept {e : Element} (he : e.Lawful) (dl : Dialect) : (e.kept dl).Lawful := by
  rcases e.body.kept_cases dl with hkept | ⟨knl, ksl, n, k, rfl, hbody, hk⟩
  · rw [Element.kept, hkept]
    exact he
  · obtain ⟨name, info, body⟩ := e
    obtain rfl : body = _ := hbody
    have hknl : ∀ x ∈ knl, x.isFinite := he.finite .knl (.numbers knl) List.mem_cons_self
    rw [Element.kept, Body.kept_multipole hk]
    refine ⟨he.named, ?_, he.length⟩
    intro p q hq
    cases List.mem_singleton.1 hq
    exact (alone_of_singleOrder? hk).isFinite hknl

/-- What a deck keeps of the elements of a document. -/
def Document.kept (dl : Dialect) (d : Document) : Document :=
  { d with elements := d.elements.map (·.kept dl) }

theorem Document.inDependencyOrder_kept (dl : Dialect) (d : Document) :
    (d.kept dl).inDependencyOrder = d.inDependencyOrder :=
  inDependencyOrder_congr rfl

/-! ## Reading the order -/

namespace Deck

open Decimal Float.Model in
/-- A natural number below `2 ^ 53` is a float, and is read as it was written. -/
theorem Session.natural?_toFloat {n : Nat} (hn : n < 2 ^ 53) :
    natural? (Decimal.toFloat ⟨n, 0⟩) = some n := by
  have hvalue : Decimal.value ⟨n, 0⟩ = n := by
    rw [value, zpow_zero, mul_one]
  rcases Nat.eq_zero_or_pos n with rfl | hpos
  · have hzero : (Decimal.toFloat ⟨0, 0⟩).toModel.unpack = .zero .positive := by
      rw [toFloat_eq, hvalue, Nat.cast_zero, rounded_zero]
      exact unpack_ofModel_pack trivial
    rw [natural?, hzero]
  · -- the mantissa of `n` has 53 bits, the last `s` of which are zero
    obtain ⟨hlow, hhigh⟩ := (Nat.log2_eq_iff hpos.ne').1 rfl
    have hlog : n.log2 < 53 := (Nat.pow_lt_pow_iff_right (by decide)).1 (hlow.trans_lt hn)
    obtain ⟨s, hs⟩ : ∃ s, n.log2 + s = 52 := ⟨52 - n.log2, by omega⟩
    have hcanonical : Canonical (n * 2 ^ s) (-s) := by
      refine ⟨by positivity, ?_, by omega, by omega, .inr ?_⟩
      · calc n * 2 ^ s < 2 ^ (n.log2 + 1) * 2 ^ s := by gcongr
          _ = 2 ^ 53 := by rw [← pow_add]; congr 1; omega
      · calc 2 ^ 52 = 2 ^ n.log2 * 2 ^ s := by rw [← pow_add, hs]
          _ ≤ n * 2 ^ s := by gcongr
    have hunpack := unpack_toFloat_of_canonical (d := ⟨n, 0⟩) hcanonical (by
      rw [hvalue, zpow_neg, zpow_natCast]
      push_cast
      field_simp)
    rw [natural?, hunpack]
    simp only [Nat.pow_eq]
    rw [neg_neg, Int.toNat_natCast, Nat.mul_mod_left, Nat.mul_div_cancel _ (by positivity)]
    split
    · rename_i hzero
      obtain rfl : s = 0 := by omega
      simp
    · rfl

end Deck

end Beamline

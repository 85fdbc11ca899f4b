import Beamline.Proofs.Deck.Quiet
import Mathlib.Data.List.Induction
import Mathlib.Data.Option.Basic

/-!
# Attributes one after the other

An element may start from another one that was finished before. Its attributes then are taken in
behind those of the other, but the order of a multipole counts only for the attributes that it
stands among.

* `given?`, `givenOrder?` : what attributes give to a parameter, and the order that they give;
* `Sketch.Values`, `Sketch.Orders`, `Sketch.Beside` : what is gathered of attributes, and what does
  not depend on where they start;
* `KeepsOrder` : the order that an element starts with makes no difference to its attributes;
* `outline_append` : then the attributes of both are taken in one after the other.
-/

namespace Beamline

namespace Deck

open Table

/-! ## What attributes give -/

/-- The value that attributes give to a parameter, the last one if there are more. -/
def given? (d : Dialect) (k : Kind) (p : Parameter) (attributes : List (String × Literal)) :
    Option Literal :=
  (attributes.reverse.find? fun a => d.parameter? k a.1 == some p).map (·.2)

/-- The order that attributes of an element of kind `k` give, the last one if there are more. -/
def givenOrder? (k : Kind) (attributes : List (String × Literal)) : Option Literal :=
  (attributes.reverse.find? fun a => k == .multipole && a.1 == "ORDER").map (·.2)

section Given

variable {d : Dialect} {k : Kind} {p : Parameter} {attributes : List (String × Literal)}
  {a : String × Literal}

theorem given?_concat_of_eq (h : d.parameter? k a.1 = some p) :
    given? d k p (attributes ++ [a]) = some a.2 := by
  simp [given?, h]

theorem given?_concat_of_ne (h : d.parameter? k a.1 ≠ some p) :
    given? d k p (attributes ++ [a]) = given? d k p attributes := by
  simp [given?, h]

theorem givenOrder?_concat_of_eq (h : k = .multipole ∧ a.1 = "ORDER") :
    givenOrder? k (attributes ++ [a]) = some a.2 := by
  simp [givenOrder?, h]

theorem givenOrder?_concat_of_ne (h : ¬ (k = .multipole ∧ a.1 = "ORDER")) :
    givenOrder? k (attributes ++ [a]) = givenOrder? k attributes := by
  simp [givenOrder?, h]

/-- An order is not given to a parameter. -/
theorem parameter?_order (d : Dialect) (k : Kind) : d.parameter? k "ORDER" = none := by
  refine List.find?_eq_none.2 fun p _ => ?_
  cases d <;> cases p <;> decide

end Given

/-! ## What is gathered of attributes -/

namespace Sketch

variable {d : Dialect} {k : Kind} {sk sk' : Sketch}

/-- The values that attributes have given, from a sketch on. A value may have been computed from
other variables than those at the start, if something has been stored. -/
structure Values (d : Dialect) (k : Kind) (attributes : List (String × Literal))
    (sk sk' : Sketch) : Prop where
  given : ∀ p v, given? d k p attributes = some v →
    ∃ vars r, Session.quantity d vars p.form v = .ok r ∧ sk'.fields.lookup p = some r.1
  kept : ∀ p, given? d k p attributes = none → sk'.fields.lookup p = sk.fields.lookup p
  nodup : (keys sk.fields).Nodup → (keys sk'.fields).Nodup

/-- The order that they have given. -/
structure Orders (d : Dialect) (k : Kind) (attributes : List (String × Literal))
    (sk sk' : Sketch) : Prop where
  order : ∀ v, givenOrder? k attributes = some v →
    ∃ vars r, Session.order d vars v = .ok r ∧ sk'.order = some r.1 ∧
      ((∀ a ∈ attributes, a.2.Quiet d) → vars = sk.vars)
  unordered : givenOrder? k attributes = none → sk'.order = sk.order
  vars : (∀ a ∈ attributes, a.2.Quiet d) → sk'.vars = sk.vars

/-- What has been gathered of attributes, from a sketch on. -/
structure Gathers (d : Dialect) (k : Kind) (attributes : List (String × Literal))
    (sk sk' : Sketch) : Prop extends Values d k attributes sk sk', Orders d k attributes sk sk'

section Concat

variable {attributes : List (String × Literal)} {a : String × Literal} {sk₁ : Sketch}

/-- An attribute that gives no parameter leaves the values as they were. -/
theorem Values.skip (h : Values d k attributes sk sk₁) (hp : d.parameter? k a.1 = none)
    (hfields : sk'.fields = sk₁.fields) : Values d k (attributes ++ [a]) sk sk' := by
  have hgiven : ∀ q, given? d k q (attributes ++ [a]) = given? d k q attributes := by
    refine fun q => given?_concat_of_ne ?_
    rw [hp]
    nofun
  constructor
  · simpa only [hgiven, hfields] using h.given
  · simpa only [hgiven, hfields] using h.kept
  · simpa only [hfields] using h.nodup

theorem Values.put (h : Values d k attributes sk sk₁) {p : Parameter} {r : Quantity × Variables}
    (hp : d.parameter? k a.1 = some p) (hr : Session.quantity d sk₁.vars p.form a.2 = .ok r)
    (hfields : sk'.fields = Table.put p r.1 sk₁.fields) :
    Values d k (attributes ++ [a]) sk sk' := by
  have hgiven : ∀ q, q ≠ p → given? d k q (attributes ++ [a]) = given? d k q attributes :=
    fun q hne => given?_concat_of_ne fun heq => hne (Option.some.inj (heq.symm.trans hp))
  constructor
  · intro q v hv
    rw [hfields, lookup_put]
    split
    · rename_i heq
      rw [given?_concat_of_eq (heq ▸ hp)] at hv
      cases hv
      exact ⟨sk₁.vars, r, heq ▸ hr, rfl⟩
    · rename_i hne
      exact h.given q v (hgiven q hne ▸ hv)
  · intro q hv
    rw [hfields, lookup_put]
    split
    · rename_i heq
      rw [given?_concat_of_eq (heq ▸ hp)] at hv
      cases hv
    · rename_i hne
      exact h.kept q (hgiven q hne ▸ hv)
  · rw [hfields]
    exact fun hnodup => nodup_keys_put (h.nodup hnodup) p r.1

theorem Values.concat (h : Values d k attributes sk sk₁) (ha : sk₁.attribute d k a = some sk') :
    Values d k (attributes ++ [a]) sk sk' := by
  rcases attribute_cases ha with ⟨horder, r, -, rfl⟩ | ⟨-, ⟨hp, rfl⟩ | ⟨p, r, hp, hr, rfl⟩⟩
  · exact h.skip (horder.2 ▸ parameter?_order d k) rfl
  · exact h.skip hp rfl
  · exact h.put hp hr rfl

theorem Orders.concat (h : Orders d k attributes sk sk₁) (ha : sk₁.attribute d k a = some sk') :
    Orders d k (attributes ++ [a]) sk sk' := by
  have hvars : (∀ b ∈ attributes ++ [a], b.2.Quiet d) → sk₁.vars = sk.vars :=
    fun hquiet => h.vars fun b hb => hquiet b (List.mem_append_left _ hb)
  have hvars' : (∀ b ∈ attributes ++ [a], b.2.Quiet d) → sk'.vars = sk.vars := fun hquiet =>
    (vars_of_attribute ha (hquiet a (List.mem_append_right _ List.mem_cons_self))).trans
      (hvars hquiet)
  by_cases horder : k = .multipole ∧ a.1 = "ORDER"
  · rcases attribute_cases ha with ⟨-, r, hr, rfl⟩ | ⟨hno, -⟩
    · refine ⟨fun v hv => ?_, fun hv => ?_, hvars'⟩
      · rw [givenOrder?_concat_of_eq horder] at hv
        cases hv
        exact ⟨sk₁.vars, r, hr, rfl, hvars⟩
      · rw [givenOrder?_concat_of_eq horder] at hv
        cases hv
    · exact absurd horder hno
  · have hsame : sk'.order = sk₁.order := by
      rcases attribute_cases ha with ⟨hyes, -⟩ | ⟨-, ⟨-, rfl⟩ | ⟨p, r, -, -, rfl⟩⟩
      · exact absurd hyes horder
      · rfl
      · rfl
    refine ⟨fun v hv => ?_, fun hv => ?_, hvars'⟩
    · rw [givenOrder?_concat_of_ne horder] at hv
      obtain ⟨vars, r, hr, hsk, hquiet⟩ := h.order v hv
      exact ⟨vars, r, hr, hsame.trans hsk, fun hall =>
        hquiet fun b hb => hall b (List.mem_append_left _ hb)⟩
    · rw [givenOrder?_concat_of_ne horder] at hv
      exact hsame.trans (h.unordered hv)

end Concat

/-- What a run over attributes gathers of them. -/
theorem gathers_of_foldlM {attributes : List (String × Literal)} : ∀ {sk' : Sketch},
    attributes.foldlM (Sketch.attribute d k) sk = some sk' → Gathers d k attributes sk sk' := by
  induction attributes using List.reverseRecOn with
  | nil =>
    intro sk' h
    cases h
    exact ⟨⟨nofun, fun _ _ => rfl, id⟩, ⟨nofun, fun _ => rfl, fun _ => rfl⟩⟩
  | append_singleton attributes a ih =>
    intro sk' h
    simp only [List.foldlM_append, List.foldlM_cons, List.foldlM_nil, bind_pure] at h
    obtain ⟨sk₁, hfirst, ha⟩ := Option.bind_eq_some_iff.1 h
    have h₁ := ih hfirst
    exact ⟨h₁.toValues.concat ha, h₁.toOrders.concat ha⟩

/-! ## Different starts -/

/-- Two sketches from which the same attributes were taken in. Where these give a value or an order,
it is the same. -/
structure Beside (d : Dialect) (k : Kind) (attributes : List (String × Literal))
    (sk sk' : Sketch) : Prop where
  vars : sk'.vars = sk.vars
  keys : keys sk'.fields = keys sk.fields
  given : ∀ p v, given? d k p attributes = some v → sk'.fields.lookup p = sk.fields.lookup p
  order : ∀ v, givenOrder? k attributes = some v → sk'.order = sk.order

theorem Beside.concat {attributes : List (String × Literal)} (h : Beside d k attributes sk sk')
    (a : String × Literal) :
    Option.Rel (Beside d k (attributes ++ [a])) (sk.attribute d k a) (sk'.attribute d k a) := by
  unfold Sketch.attribute
  rw [h.vars]
  split
  · rename_i horder
    cases (Session.order d sk.vars a.2).toOption with
    | none => exact .none
    | some r =>
      refine .some ⟨rfl, h.keys, fun p v hv => ?_, fun v _ => rfl⟩
      rw [given?_concat_of_ne (by rw [horder.2, parameter?_order]; nofun)] at hv
      exact h.given p v hv
  · rename_i horder
    cases hp : d.parameter? k a.1 with
    | none =>
      refine .some ⟨h.vars, h.keys, fun p v hv => ?_, fun v hv => ?_⟩
      · rw [given?_concat_of_ne (by rw [hp]; nofun)] at hv
        exact h.given p v hv
      · rw [givenOrder?_concat_of_ne horder] at hv
        exact h.order v hv
    | some p =>
      dsimp only
      cases (Session.quantity d sk.vars p.form a.2).toOption with
      | none => exact .none
      | some r =>
        refine .some ⟨rfl, keys_put_eq h.keys p r.1 r.1, fun q v hv => ?_, fun v hv => ?_⟩
        · dsimp only
          rw [lookup_put, lookup_put]
          split
          · rfl
          · rename_i hne
            rw [given?_concat_of_ne fun heq => hne (Option.some.inj (heq.symm.trans hp))] at hv
            exact h.given q v hv
        · rw [givenOrder?_concat_of_ne horder] at hv
          exact h.order v hv

/-- Whether attributes have values, and which values they give, does not depend on the parameters
and the order that they start with. -/
theorem beside_of_foldlM (attributes : List (String × Literal)) (hvars : sk'.vars = sk.vars)
    (hkeys : Table.keys sk'.fields = Table.keys sk.fields) :
    Option.Rel (Beside d k attributes) (attributes.foldlM (Sketch.attribute d k) sk)
      (attributes.foldlM (Sketch.attribute d k) sk') := by
  induction attributes using List.reverseRecOn with
  | nil => exact .some ⟨hvars, hkeys, nofun, nofun⟩
  | append_singleton attributes a ih =>
    simp only [List.foldlM_append, List.foldlM_cons, List.foldlM_nil, bind_pure]
    generalize attributes.foldlM (Sketch.attribute d k) sk = x at ih ⊢
    generalize attributes.foldlM (Sketch.attribute d k) sk' = y at ih ⊢
    cases ih with
    | none => exact .none
    | some h => exact h.concat a

end Sketch

/-! ## The order in the end -/

/-- A single strength, moved to the order if there is one. -/
def raise (order : Option Nat) (q : Quantity) : Quantity :=
  match order, q with
  | some n, .numbers [x] => .numbers (List.replicate n 0 ++ [x])
  | _, q => q

theorem map_raise_none (q : Option Quantity) : q.map (raise none) = q :=
  Option.map_id'

theorem raise_zero (q : Quantity) : raise (some 0) q = q := by
  unfold raise
  split
  · rename_i heq
    cases heq
    rfl
  · rfl

theorem raise_of_length {xs : List Float} (h : xs.length ≠ 1) (order : Option Nat) :
    raise order (.numbers xs) = .numbers xs := by
  unfold raise
  split
  · rename_i heq
    cases heq
    exact absurd rfl h
  · rfl

theorem raise_raise (order : Option Nat) (q : Quantity) :
    raise order (raise order q) = raise order q := by
  cases order with
  | none => rfl
  | some n =>
    cases n with
    | zero => rw [raise_zero]
    | succ n =>
      match q with
      | .numbers [x] => exact raise_of_length (by simp) _
      | .number x | .numbers [] | .numbers (_ :: _ :: _) => rfl

theorem Sketch.finish_eq (sk : Sketch) :
    sk.finish = sk.fields.map fun f => (f.1, raise sk.order f.2) := by
  unfold Sketch.finish
  cases sk.order with
  | none => exact (List.map_id' _).symm
  | some n =>
    refine List.map_congr_left fun f _ => ?_
    match f with
    | (_, .numbers [_]) => rfl
    | (_, .number _) | (_, .numbers []) | (_, .numbers (_ :: _ :: _)) => rfl

theorem Sketch.lookup_finish (sk : Sketch) (p : Parameter) :
    sk.finish.lookup p = (sk.fields.lookup p).map (raise sk.order) := by
  rw [sk.finish_eq]
  exact lookup_map (fun _ => raise sk.order) sk.fields p

theorem Sketch.keys_finish (sk : Sketch) : keys sk.finish = keys sk.fields := by
  rw [sk.finish_eq]
  exact List.map_map

/-- A list of numbers, but not of a single one. -/
def Literal.IsList : Literal → Prop
  | .array es => es.length ≠ 1
  | _ => False

/-- No order moves a value that is not a single number of a list. -/
theorem raise_of_quantity {d : Dialect} {vars : Variables} {form : Form} {v : Literal}
    {r : Quantity × Variables} (h : Session.quantity d vars form v = .ok r)
    (hlist : form = .numbers → v.IsList) (order : Option Nat) : raise order r.1 = r.1 := by
  unfold Session.quantity at h
  split at h
  · obtain ⟨xs, hxs, h⟩ := bind_eq_ok.1 h
    obtain ⟨ys, hys, h⟩ := bind_eq_ok.1 h
    cases h
    refine raise_of_length ?_ order
    rw [← (mapM_eq_ok.1 hys).length_eq, ← (mapM_eq_ok.1 hxs).length_eq]
    exact hlist rfl
  · rename_i harray
    have hlist := hlist rfl
    unfold Literal.IsList at hlist
    split at hlist
    · exact absurd rfl (harray _)
    · exact hlist.elim
  · obtain ⟨x, -, h⟩ := bind_eq_ok.1 h
    obtain ⟨y, -, h⟩ := bind_eq_ok.1 h
    cases h
    cases order <;> rfl

/-! ## Starting from another element -/

/-- An order that is `n` if it has a value at all. -/
def Gives (d : Dialect) (v : Literal) (n : Nat) : Prop :=
  ∀ vars r, Session.order d vars v = .ok r → r.1 = n

/-- The order that the attributes `as` give need not be known where the attributes `bs` are taken in
behind them. -/
inductive KeepsOrder (d : Dialect) (k : Kind) (as bs : List (String × Literal)) : Prop
  /-- No order is given. -/
  | unordered (h : givenOrder? k as = none)
  /-- The order moves nothing. -/
  | zero {v : Literal} (h : givenOrder? k as = some v) (hv : Gives d v 0)
  /-- The order is the last one, and behind it only lists are given. -/
  | lists (h : givenOrder? k bs = none)
      (hlist : ∀ p v, given? d k p bs = some v → p.form = .numbers → v.IsList)
  /-- The same order is given again. -/
  | again {v w : Literal} {n : Nat} (h : givenOrder? k as = some v) (hv : Gives d v n)
      (h' : givenOrder? k bs = some w) (hw : Gives d w n)
  /-- It is spelled the same again, and nothing is stored on the way. -/
  | repeated {v : Literal} (h : givenOrder? k as = some v) (h' : givenOrder? k bs = some v)
      (hquiet : ∀ a ∈ bs, a.2.Quiet d)
  /-- Another order is given, and what is not given again are lists. -/
  | renewed {w : Literal} (h : givenOrder? k bs = some w)
      (hlist : ∀ p v, given? d k p as = some v → given? d k p bs = none → p.form = .numbers →
        v.IsList)

section Append

variable {d : Dialect} {k : Kind} {vars : Variables} {as bs : List (String × Literal)}

/-- A value that is given behind other attributes without an order is not moved by theirs. -/
theorem Sketch.raise_of_given {A B : Sketch} (horder : KeepsOrder d k as bs)
    (hA : Gathers d k as ⟨vars, [], none⟩ A) (hB : Gathers d k bs A B) {p : Parameter} {v : Literal}
    (hv : given? d k p bs = some v) (hnone : givenOrder? k bs = none) :
    (B.fields.lookup p).map (raise A.order) = B.fields.lookup p := by
  obtain ⟨vars', r, hr, hlookup⟩ := hB.given p v hv
  rw [hlookup]
  refine congrArg some ?_
  cases horder with
  | unordered h =>
    rw [hA.unordered h]
    rfl
  | zero h hzero =>
    obtain ⟨vars₁, r₁, hr₁, hA, -⟩ := hA.order _ h
    rw [hA, hzero vars₁ r₁ hr₁]
    exact raise_zero r.1
  | lists h hlist => exact raise_of_quantity hr (hlist p v hv) A.order
  | again h hv h' hw | repeated h h' hquiet | renewed h' hlist =>
    rw [hnone] at h'
    cases h'

/-- A value that is not given again moves to the order that is, wherever it was before. -/
theorem Sketch.raise_of_kept {A B : Sketch} (horder : KeepsOrder d k as bs)
    (has : ∀ a ∈ as, a.2.Quiet d) (hA : Gathers d k as ⟨vars, [], none⟩ A)
    (hB : Gathers d k bs A B) {p : Parameter} (hp : given? d k p bs = none) {w : Literal}
    (hw : givenOrder? k bs = some w) :
    ((A.fields.lookup p).map (raise A.order)).map (raise B.order) =
      (A.fields.lookup p).map (raise B.order) := by
  rw [Option.map_map]
  refine Option.map_congr fun q hq => ?_
  show raise B.order (raise A.order q) = raise B.order q
  cases horder with
  | unordered h =>
    rw [hA.unordered h]
    rfl
  | zero h hzero =>
    obtain ⟨vars₁, r₁, hr₁, hA, -⟩ := hA.order _ h
    rw [hA, hzero vars₁ r₁ hr₁, raise_zero]
  | lists h hlist =>
    rw [hw] at h
    cases h
  | again h hv h' hw =>
    obtain ⟨vars₁, r₁, hr₁, hA, -⟩ := hA.order _ h
    obtain ⟨vars₂, r₂, hr₂, hB, -⟩ := hB.order _ h'
    rw [hA, hB, hv vars₁ r₁ hr₁, hw vars₂ r₂ hr₂, raise_raise]
  | repeated h h' hquiet =>
    obtain ⟨vars₁, r₁, hr₁, horderA, hvars₁⟩ := hA.order _ h
    obtain ⟨vars₂, r₂, hr₂, horderB, hvars₂⟩ := hB.order _ h'
    rw [hvars₁ has] at hr₁
    rw [hvars₂ hquiet, hA.vars has, hr₁] at hr₂
    cases hr₂
    rw [horderA, horderB, raise_raise]
  | renewed h' hlist =>
    cases hgiven : given? d k p as with
    | none =>
      rw [hA.kept p hgiven] at hq
      cases hq
    | some v =>
      obtain ⟨vars₁, r₁, hr₁, hlookup⟩ := hA.given p v hgiven
      rw [hlookup] at hq
      cases hq
      rw [raise_of_quantity hr₁ (hlist p v hgiven hp)]

/-- The parameters are the same in the end, whether the attributes `as` were finished or not. -/
theorem Sketch.Beside.finish_eq {A B B' : Sketch} (h : Beside d k bs B B')
    (horder : KeepsOrder d k as bs) (has : ∀ a ∈ as, a.2.Quiet d)
    (hA : Gathers d k as ⟨vars, [], none⟩ A) (hB : Gathers d k bs A B)
    (hB' : Gathers d k bs ⟨vars, A.finish, none⟩ B') :
    B'.finish = B.finish := by
  have hnodup : (Table.keys A.fields).Nodup := hA.nodup List.nodup_nil
  refine eq_of_lookup ?_ ?_ fun p => ?_
  · rw [B'.keys_finish, h.keys]
    exact hB.nodup hnodup
  · rw [B'.keys_finish, B.keys_finish, h.keys]
  · rw [B'.lookup_finish, B.lookup_finish]
    cases hp : given? d k p bs with
    | some v =>
      rw [h.given p v hp]
      cases hw : givenOrder? k bs with
      | some w => rw [h.order w hw]
      | none =>
        rw [hB'.unordered hw, hB.unordered hw, map_raise_none]
        exact (raise_of_given horder hA hB hp hw).symm
    | none =>
      rw [hB'.kept p hp, hB.kept p hp, A.lookup_finish]
      cases hw : givenOrder? k bs with
      | some w =>
        rw [h.order w hw]
        exact raise_of_kept horder has hA hB hp hw
      | none => rw [hB'.unordered hw, hB.unordered hw, map_raise_none]

/-- Attributes behind those of another element are taken in behind what this is defined as, if that
keeps the order. -/
theorem outline_append {fields : List (Parameter × Quantity)} (horder : KeepsOrder d k as bs)
    (has : ∀ a ∈ as, a.2.Quiet d) (h : outline? d vars (some (k, [])) as = some ⟨k, fields, vars⟩) :
    outline? d vars (some (k, fields)) bs = outline? d vars (some (k, [])) (as ++ bs) := by
  obtain ⟨A, hA, heq⟩ := Option.map_eq_some_iff.1 h
  obtain ⟨-, rfl, rfl⟩ := Shape.mk.inj heq
  have hbeside : Option.Rel (Sketch.Beside d k bs) (bs.foldlM (Sketch.attribute d k) A)
      (bs.foldlM (Sketch.attribute d k) ⟨A.vars, A.finish, none⟩) :=
    Sketch.beside_of_foldlM bs rfl A.keys_finish
  unfold outline?
  dsimp only
  rw [List.foldlM_append, hA]
  dsimp only [Option.bind_eq_bind, Option.bind_some]
  generalize hB : bs.foldlM (Sketch.attribute d k) A = x at hbeside ⊢
  generalize hB' : bs.foldlM (Sketch.attribute d k) ⟨A.vars, A.finish, none⟩ = y at hbeside ⊢
  cases hbeside with
  | none => rfl
  | some hbeside =>
    have hfinish := hbeside.finish_eq horder has (Sketch.gathers_of_foldlM hA)
      (Sketch.gathers_of_foldlM hB) (Sketch.gathers_of_foldlM hB')
    rw [Option.map_some, Option.map_some, hfinish, hbeside.vars]

end Append

end Deck

end Beamline

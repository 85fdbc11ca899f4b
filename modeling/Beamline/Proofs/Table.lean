import Beamline.Table
import Mathlib.Data.List.Nodup

/-!
# Tables

* `notMem_of_nodup`, `find?_of_mem` : lists of entries with distinct names;
* `keys_put`, `nodup_keys_ofList` : putting keeps the keys distinct and in their order;
* `ofList_of_nodup` : a list with distinct keys is a table already;
* `mem_of_lookup`, `lookup_of_mem` : in a table with distinct keys, looking up finds the entries;
* `lookup_map`, `lookup_filter`, `perm_of_lookup`, `eq_of_lookup` : a table as a function of its
  keys;
* `lookup_put`, `lookup_drop` : what is looked up after an entry was put, and after one left.
-/

namespace Beamline

/-! ## Distinct entries -/

section Distinct

variable {α : Type} {xs ys : List α} {x : α}

theorem notMem_of_nodup (h : (xs ++ x :: ys).Nodup) : x ∉ xs := by
  intro hmem
  rw [List.nodup_middle, List.nodup_cons] at h
  exact h.1 (List.mem_append_left _ hmem)

theorem nodup_append_singleton (h : xs.Nodup) (hx : x ∉ xs) : (xs ++ [x]).Nodup := by
  rw [List.nodup_append_comm]
  exact List.nodup_cons.2 ⟨hx, h⟩

/-- Names are looked up in vain if they are not there. -/
theorem find?_eq_none_iff {f : α → String} :
    xs.find? (f · == f x) = none ↔ f x ∉ xs.map f := by
  simp

theorem find?_of_mem {f : α → String} (hnodup : (xs.map f).Nodup) (hx : x ∈ xs) :
    xs.find? (f · == f x) = some x := by
  induction xs with
  | nil => cases hx
  | cons y xs ih =>
    rw [List.map_cons, List.nodup_cons] at hnodup
    rcases List.mem_cons.1 hx with rfl | hx
    · rw [List.find?_cons_of_pos (by simp)]
    · rw [List.find?_cons_of_neg, ih hnodup.2 hx]
      rw [beq_iff_eq]
      exact fun heq => hnodup.1 (heq ▸ List.mem_map_of_mem hx)

end Distinct

namespace Table

variable {κ α : Type}

theorem mem_keys {t : List (κ × α)} {key : κ} : key ∈ keys t ↔ ∃ v, (key, v) ∈ t := by
  simp [keys]

theorem mem_keys_of_mem {t : List (κ × α)} {e : κ × α} (h : e ∈ t) : e.1 ∈ keys t :=
  List.mem_map_of_mem h

theorem keys_append (s t : List (κ × α)) : keys (s ++ t) = keys s ++ keys t :=
  List.map_append

variable [BEq κ] [LawfulBEq κ]

theorem has_iff {t : List (κ × α)} {key : κ} : has t key ↔ key ∈ keys t := by
  simp [has, keys]

/-! ## Looking up -/

theorem mem_of_lookup {t : List (κ × α)} {key : κ} {v : α} (h : t.lookup key = some v) :
    (key, v) ∈ t := by
  induction t with
  | nil => cases h
  | cons e t ih =>
    obtain ⟨k, w⟩ := e
    rw [List.lookup_cons] at h
    split at h
    · rename_i heq
      rw [eq_of_beq heq, ← Option.some.inj h]
      exact List.mem_cons_self
    · exact List.mem_cons_of_mem _ (ih h)

theorem lookup_isSome {t : List (κ × α)} {key : κ} : (t.lookup key).isSome ↔ key ∈ keys t := by
  induction t with
  | nil => simp [keys]
  | cons e t ih =>
    obtain ⟨k, w⟩ := e
    rw [List.lookup_cons]
    by_cases h : key == k
    · simp [keys, eq_of_beq h]
    · rw [Bool.not_eq_true] at h
      rw [h, ih]
      simp [keys, ne_of_beq_false h]

theorem lookup_eq_none {t : List (κ × α)} {key : κ} : t.lookup key = none ↔ key ∉ keys t := by
  rw [← lookup_isSome, Option.not_isSome_iff_eq_none]

theorem exists_lookup {t : List (κ × α)} {key : κ} (h : key ∈ keys t) :
    ∃ v, t.lookup key = some v :=
  Option.isSome_iff_exists.1 (lookup_isSome.2 h)

theorem lookup_of_mem {t : List (κ × α)} (hnodup : (keys t).Nodup) {key : κ} {v : α}
    (h : (key, v) ∈ t) : t.lookup key = some v := by
  induction t with
  | nil => cases h
  | cons e t ih =>
    obtain ⟨k, w⟩ := e
    rw [keys, List.map_cons, List.nodup_cons] at hnodup
    rw [List.lookup_cons]
    rcases List.mem_cons.1 h with h | h
    · rw [(Prod.mk.inj h).1, (Prod.mk.inj h).2, beq_self_eq_true]
    · have hne : key ≠ k := by
        intro heq
        exact hnodup.1 (mem_keys.2 ⟨v, heq ▸ h⟩)
      rw [beq_eq_false_iff_ne.2 hne]
      exact ih hnodup.2 h

theorem lookup_map {β : Type} (f : κ → α → β) (t : List (κ × α)) (key : κ) :
    (t.map fun e => (e.1, f e.1 e.2)).lookup key = (t.lookup key).map (f key) := by
  induction t with
  | nil => rfl
  | cons e t ih =>
    rw [List.map_cons, List.lookup_cons, List.lookup_cons, ih]
    split
    · rename_i h
      rw [eq_of_beq h]
      rfl
    · rfl

theorem lookup_filter (p : κ → Bool) (t : List (κ × α)) (key : κ) :
    (t.filter fun e => p e.1).lookup key = if p key then t.lookup key else none := by
  induction t with
  | nil => exact (ite_self _).symm
  | cons e t ih =>
    rw [List.filter_cons, List.lookup_cons]
    by_cases h : key == e.1
    · rw [h, ← eq_of_beq h]
      split
      · rw [List.lookup_cons, h]
      · rename_i hp
        rw [ih, if_neg hp]
    · rw [Bool.not_eq_true] at h
      rw [h]
      split
      · rw [List.lookup_cons, h, ih]
      · exact ih

/-- Tables with distinct keys that have the same entry under every key are the same up to order. -/
theorem perm_of_lookup {s t : List (κ × α)} (hs : (keys s).Nodup) (ht : (keys t).Nodup)
    (h : ∀ key, s.lookup key = t.lookup key) : s.Perm t := by
  rw [List.perm_ext_iff_of_nodup hs.of_map ht.of_map]
  intro e
  constructor
  · intro he
    exact mem_of_lookup (by rw [← h, lookup_of_mem hs he])
  · intro he
    exact mem_of_lookup (by rw [h, lookup_of_mem ht he])

theorem lookup_of_perm {s t : List (κ × α)} (hs : (keys s).Nodup) (h : s.Perm t) (key : κ) :
    s.lookup key = t.lookup key := by
  cases hv : s.lookup key with
  | none =>
    rw [lookup_eq_none] at hv
    exact (lookup_eq_none.2 fun hmem => hv ((h.map Prod.fst).mem_iff.2 hmem)).symm
  | some v =>
    have ht : (keys t).Nodup := (h.map Prod.fst).nodup_iff.1 hs
    exact (lookup_of_mem ht (h.mem_iff.1 (mem_of_lookup hv))).symm

/-- Tables with the same distinct keys and the same entry under every key are equal. -/
theorem eq_of_lookup {s : List (κ × α)} : ∀ {t : List (κ × α)}, (keys s).Nodup →
    keys s = keys t → (∀ key, s.lookup key = t.lookup key) → s = t := by
  induction s with
  | nil =>
    intro t _ hkeys _
    exact (List.map_eq_nil_iff.1 hkeys.symm).symm
  | cons e s ih =>
    intro t hnodup hkeys h
    obtain ⟨e', t, rfl, hkey, hrest⟩ := List.map_eq_cons_iff.1 hkeys.symm
    obtain ⟨k, v⟩ := e
    obtain ⟨k', v'⟩ := e'
    obtain rfl : k' = k := hkey
    have hnodup := List.nodup_cons.1 hnodup
    have hv := h k'
    rw [List.lookup_cons_self, List.lookup_cons_self] at hv
    cases hv
    refine congrArg _ (ih hnodup.2 hrest.symm fun key => ?_)
    by_cases heq : key == k'
    · rw [eq_of_beq heq, lookup_eq_none.2 hnodup.1, lookup_eq_none.2]
      rw [keys, hrest]
      exact hnodup.1
    · have hlookup := h key
      rw [Bool.not_eq_true] at heq
      rw [List.lookup_cons, List.lookup_cons, heq] at hlookup
      exact hlookup

/-! ## Putting -/

theorem lookup_put [DecidableEq κ] (key : κ) (v : α) (t : List (κ × α)) (k : κ) :
    (put key v t).lookup k = if k = key then some v else t.lookup k := by
  by_cases h : k = key
  · subst h
    rw [if_pos rfl]
    induction t with
    | nil => exact List.lookup_cons_self
    | cons e t ih =>
      unfold put
      split
      · rename_i heq
        rw [eq_of_beq heq]
        exact List.lookup_cons_self
      · rename_i hne
        have hbeq : (k == e.1) = false := by
          rw [beq_eq_false_iff_ne]
          exact fun heq => hne (beq_iff_eq.2 heq.symm)
        rw [List.lookup_cons, hbeq]
        exact ih
  · have hbeq : (k == key) = false := beq_eq_false_iff_ne.2 h
    rw [if_neg h]
    induction t with
    | nil => rw [put, List.lookup_cons, hbeq]
    | cons e t ih =>
      unfold put
      split
      · rename_i heq
        rw [List.lookup_cons, List.lookup_cons, eq_of_beq heq, hbeq]
      · rw [List.lookup_cons, List.lookup_cons, ih]

theorem put_of_notMem {t : List (κ × α)} {key : κ} (h : key ∉ keys t) (v : α) :
    put key v t = t ++ [(key, v)] := by
  induction t with
  | nil => rfl
  | cons e t ih =>
    rw [keys, List.map_cons, List.mem_cons, not_or] at h
    rw [put, if_neg (by simpa using Ne.symm h.1), ih h.2, List.cons_append]

theorem keys_put_of_mem {t : List (κ × α)} {key : κ} (h : key ∈ keys t) (v : α) :
    keys (put key v t) = keys t := by
  induction t with
  | nil => cases h
  | cons e t ih =>
    unfold put
    split
    · rfl
    · rename_i hne
      rw [keys, List.map_cons, List.mem_cons] at h
      rcases h with h | h
      · exact absurd (beq_iff_eq.2 h.symm) hne
      · exact congrArg (e.1 :: ·) (ih h)

theorem has_put_of_mem {t : List (κ × α)} {key : κ} (h : key ∈ keys t) (v : α) :
    has (put key v t) = has t := by
  funext k
  rw [Bool.eq_iff_iff, has_iff, has_iff, keys_put_of_mem h]

/-- Putting under a key that a table has changes one entry and leaves the others where they are. -/
theorem exists_put_eq_append {t : List (κ × α)} {key : κ} (h : key ∈ keys t) :
    ∃ before old behind, t = before ++ (key, old) :: behind ∧
      ∀ v, put key v t = before ++ (key, v) :: behind := by
  induction t with
  | nil => cases h
  | cons e t ih =>
    by_cases heq : e.1 = key
    · subst heq
      exact ⟨[], e.2, t, rfl, fun v => by simp [put]⟩
    · have hmem : key ∈ keys t := by
        rw [keys, List.map_cons, List.mem_cons] at h
        exact h.resolve_left (Ne.symm heq)
      obtain ⟨before, old, behind, ht, hput⟩ := ih hmem
      refine ⟨e :: before, old, behind, by rw [ht, List.cons_append], fun v => ?_⟩
      rw [put, if_neg (by simpa using heq), hput, List.cons_append]

/-- Putting under the same key keeps the keys of two tables the same. -/
theorem keys_put_eq {β : Type} {s : List (κ × α)} {t : List (κ × β)} (h : keys s = keys t) (key : κ)
    (v : α) (w : β) : keys (put key v s) = keys (put key w t) := by
  by_cases hmem : key ∈ keys t
  · rw [keys_put_of_mem hmem, keys_put_of_mem (h ▸ hmem), h]
  · rw [put_of_notMem hmem, put_of_notMem (h ▸ hmem), keys_append, keys_append, h]
    rfl

/-- What is put last under a key counts. -/
theorem put_put (t : List (κ × α)) (key : κ) (v w : α) : put key w (put key v t) = put key w t := by
  induction t with
  | nil => simp [put]
  | cons e t ih =>
    by_cases heq : e.1 = key
    · simp [put, heq]
    · simp [put, heq, ih]

theorem mem_keys_put {t : List (κ × α)} {key k : κ} {v : α} :
    k ∈ keys (put key v t) ↔ k ∈ keys t ∨ k = key := by
  by_cases hmem : key ∈ keys t
  · rw [keys_put_of_mem hmem]
    exact ⟨.inl, fun h => h.elim id fun heq => heq ▸ hmem⟩
  · rw [put_of_notMem hmem, keys_append, List.mem_append]
    exact or_congr_right List.mem_singleton

theorem nodup_keys_put {t : List (κ × α)} (h : (keys t).Nodup) (key : κ) (v : α) :
    (keys (put key v t)).Nodup := by
  by_cases hmem : key ∈ keys t
  · rw [keys_put_of_mem hmem]
    exact h
  · rw [put_of_notMem hmem, keys, List.map_append]
    exact nodup_append_singleton h hmem

theorem mem_of_mem_put {t : List (κ × α)} {key : κ} {v : α} {e : κ × α} (h : e ∈ put key v t) :
    e = (key, v) ∨ e ∈ t := by
  induction t with
  | nil => exact .inl (List.mem_singleton.1 h)
  | cons e' t ih =>
    unfold put at h
    split at h
    · rename_i heq
      rcases List.mem_cons.1 h with h | h
      · exact .inl (by rw [h, eq_of_beq heq])
      · exact .inr (List.mem_cons_of_mem _ h)
    · rcases List.mem_cons.1 h with h | h
      · exact .inr (h ▸ List.mem_cons_self)
      · exact (ih h).imp id (List.mem_cons_of_mem _)

theorem nodup_keys_ofList (entries : List (κ × α)) : (keys (ofList entries)).Nodup := by
  unfold ofList
  suffices h : ∀ t : List (κ × α), (keys t).Nodup →
      (keys (entries.foldl (fun t e => put e.1 e.2 t) t)).Nodup from h [] List.nodup_nil
  induction entries with
  | nil => exact fun t ht => ht
  | cons e entries ih => exact fun t ht => ih _ (nodup_keys_put ht e.1 e.2)

theorem mem_of_mem_ofList {entries : List (κ × α)} {e : κ × α} (h : e ∈ ofList entries) :
    e ∈ entries := by
  unfold ofList at h
  suffices hs : ∀ t : List (κ × α), e ∈ entries.foldl (fun t e => put e.1 e.2 t) t →
      e ∈ t ∨ e ∈ entries from (hs [] h).resolve_left (List.not_mem_nil)
  clear h
  induction entries with
  | nil => exact fun t ht => .inl ht
  | cons e' entries ih =>
    intro t ht
    rcases ih _ ht with h | h
    · refine (mem_of_mem_put h).symm.imp id fun h => ?_
      rw [h]
      exact List.mem_cons_self
    · exact .inr (List.mem_cons_of_mem _ h)

theorem ofList_of_nodup {entries : List (κ × α)} (h : (keys entries).Nodup) :
    ofList entries = entries := by
  unfold ofList
  suffices hs : ∀ t : List (κ × α), (keys (t ++ entries)).Nodup →
      entries.foldl (fun t e => put e.1 e.2 t) t = t ++ entries from hs [] h
  clear h
  induction entries with
  | nil => exact fun t _ => (List.append_nil t).symm
  | cons e entries ih =>
    intro t ht
    have hnot : e.1 ∉ keys t := by
      rw [keys, List.map_append, List.map_cons] at ht
      exact notMem_of_nodup ht
    rw [List.foldl_cons, put_of_notMem hnot, ih _ (by simpa using ht), List.append_assoc]
    rfl

/-! ## Leaving -/

/-- What is left of a table when an entry leaves is the rest of it, in some order. -/
theorem drop_perm {t : List (κ × α)} (hnodup : (keys t).Nodup) (key : κ) :
    (drop key t).Perm (t.filter fun e => e.1 != key) := by
  induction t with
  | nil => exact .nil
  | cons e t ih =>
    rw [keys, List.map_cons, List.nodup_cons] at hnodup
    unfold drop
    split
    · rename_i heq
      have hrest : t.filter (fun e => e.1 != key) = t := by
        rw [List.filter_eq_self]
        intro e' he'
        rw [bne_iff_ne, ← eq_of_beq heq]
        exact fun heq' => hnodup.1 (heq' ▸ mem_keys_of_mem he')
      rw [List.filter_cons_of_neg (by simpa using heq), hrest]
      cases hlast : t.getLast? with
      | none => rw [List.getLast?_eq_none_iff.1 hlast]
      | some l =>
        obtain ⟨front, rfl⟩ := List.getLast?_eq_some_iff.1 hlast
        rw [List.dropLast_concat]
        exact (List.perm_append_singleton l front).symm
    · rename_i hne
      rw [List.filter_cons_of_pos (by simpa using hne)]
      exact (ih hnodup.2).cons e

theorem nodup_keys_drop {t : List (κ × α)} (hnodup : (keys t).Nodup) (key : κ) :
    (keys (drop key t)).Nodup :=
  ((drop_perm hnodup key).map Prod.fst).nodup_iff.2
    ((List.filter_sublist.map Prod.fst).nodup hnodup)

theorem lookup_drop [DecidableEq κ] {t : List (κ × α)} (hnodup : (keys t).Nodup) (key k : κ) :
    (drop key t).lookup k = if k = key then none else t.lookup k := by
  rw [lookup_of_perm (nodup_keys_drop hnodup key) (drop_perm hnodup key), lookup_filter (· != key)]
  by_cases h : k = key <;> simp [h]

end Table

end Beamline

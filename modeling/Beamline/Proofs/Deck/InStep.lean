import Beamline.Proofs.Deck.Arrangement
import Mathlib.Data.List.Induction

/-!
# Lines and their reversed forms in step

A reversed form is made once, from what its line holds at the time.

* `Ripe` : all lines that a name leads to are there, and their reversed forms are to be trusted;
* `Mirrors` : the reversed form of a line holds the items of the line, turned round;
* `InStep` : lines that reversed forms mirror, with what is known of their labels and items;
* `Reversed.inStep`, `InStep.put` : a reversal of a ripe name and a definition keep lines in step;
* `keeps_inStep` : so does the arrangement of items in which only ripe names are reversed;
* `Ruled.inStep` : so do definitions, one after the other.
-/

namespace Beamline.Deck

open Table Relation

section Names

variable (all : Lines) (late trusted : String → Prop) (lines : Lines) (s : String)

/-- If `s` is the name of a line in the end, it is that of a line already, unless it may come
late. -/
def Present : Prop :=
  s ∈ keys all → s ∈ keys lines ∨ late s

/-- The lines that `s` leads to are there, `s` included, and they are trusted. -/
def Ripe : Prop :=
  ∀ m, ReflTransGen (Holds lines) s m → m ∈ keys all → trusted m ∧ m ∈ keys lines

/-- The reversed form of the line `s` holds the items of `s` from the last to the first, and the
reversed forms of those that are lines; these are trusted too. -/
def Mirrors : Prop :=
  ∃ items, lines.lookup s = some items ∧
    lines.lookup (reversedName s) = some (items.reverse.map (reversedItem all)) ∧
    ∀ i ∈ items, i ∈ keys all → trusted i ∧ reversedName i ∈ keys lines

end Names

/-- The lines of some definitions, in step with their reversed forms. The lines of the deck are
`all` in the end, those that may be defined after they are named are the ones that are `late`, and
the reversed forms of those that are `trusted` mirror them. -/
structure InStep (all : Lines) (late trusted : String → Prop)
    (definitions : List (String × List LineItem)) (lines : Lines) : Prop where
  within : keys lines ⊆ keys all
  nodup : (keys lines).Nodup
  labelled : ∀ s ∈ keys lines, s ∈ keys definitions ∨ ∃ x ∈ keys lines, s = reversedName x
  closed : ∀ e ∈ lines, ∀ i ∈ e.2, Present all late lines i
  mirrors : ∀ s, trusted s → reversedName s ∈ keys lines → Mirrors all trusted lines s
  laid : ∀ before name items after, definitions = before ++ (name, items) :: after →
    name ∉ keys after →
    lines.lookup name = some (LineItem.valueOf (reversedItem all) (fun s => [s]) items)

variable {all : Lines} {late trusted : String → Prop}
  {definitions before : List (String × List LineItem)} {lines lines' : Lines} {s : String}

theorem Present.mono (h : Present all late lines s) (hsub : keys lines ⊆ keys lines') :
    Present all late lines' s :=
  fun hs => (h hs).imp_left fun hmem => hsub hmem

theorem Mirrors.mono (h : Mirrors all trusted lines s) (hextends : Extends lines lines') :
    Mirrors all trusted lines' s := by
  obtain ⟨items, hitems, hreversed, hdeep⟩ := h
  exact ⟨items, hextends.lookup_eq_some hitems, hextends.lookup_eq_some hreversed,
    fun i hi hall => (hdeep i hi hall).imp_right fun hmem => hextends.subset hmem⟩

/-- What a line that is there holds later it holds now. -/
theorem Holds.of_extends (hnodup : (keys lines').Nodup) (hextends : Extends lines lines')
    {a b : String} (ha : a ∈ keys lines) (h : Holds lines' a b) : Holds lines a b := by
  obtain ⟨items, hitems, hb⟩ := h
  obtain ⟨items', hlookup⟩ := exists_lookup ha
  have heq := lookup_of_mem hnodup hitems
  rw [hextends.lookup_eq_some hlookup] at heq
  cases heq
  exact ⟨items, mem_of_lookup hlookup, hb⟩

/-- A ripe name leads nowhere else when there are more lines. -/
theorem Ripe.mono (h : Ripe all trusted lines s) (hextends : Extends lines lines')
    (hlines' : InStep all late trusted definitions lines') : Ripe all trusted lines' s := by
  have hreach : ∀ m, ReflTransGen (Holds lines') s m → ReflTransGen (Holds lines) s m := by
    intro m hm
    induction hm with
    | refl => exact .refl
    | @tail b m _ hbm ih =>
      obtain ⟨items, hitems, -⟩ := id hbm
      have hb := (h b ih (hlines'.within (mem_keys_of_mem hitems))).2
      exact ih.tail (hbm.of_extends hlines'.nodup hextends hb)
  intro m hm hall
  exact (h m (hreach m hm) hall).imp_right fun hmem => hextends.subset hmem

/-! ## Reversals -/

section Reversals

variable {name : String}

theorem Ripe.unchanged (h : Ripe all trusted lines name) (hsub : keys lines' ⊆ keys all) :
    Reversal.Unchanged lines name lines' :=
  fun e he hreach i hi hmem => (h i (hreach.tail ⟨e.2, he, hi⟩) (hsub hmem)).2

/-- Among the lines that a ripe name leads to, the lines are those of the end. -/
theorem Ripe.reversedItem_eq (h : Ripe all trusted lines name)
    (hlines : InStep all late trusted definitions lines) {x : String} {items : List String}
    (hreach : ReflTransGen (Holds lines) name x) (hx : (x, items) ∈ lines) {i : String}
    (hi : i ∈ items) : reversedItem lines i = reversedItem all i := by
  by_cases hall : i ∈ keys all
  · rw [reversedItem_of_mem hall, reversedItem_of_mem (h i (hreach.tail ⟨_, hx, hi⟩) hall).2]
  · rw [reversedItem_of_notMem hall, reversedItem_of_notMem fun hmem => hall (hlines.within hmem)]

/-- The lines stay in step when a ripe name is reversed. -/
theorem Reversed.inStep (h : Reversed lines name lines') (hripe : Ripe all trusted lines name)
    (hlines : InStep all late trusted definitions lines) (hsub : keys lines' ⊆ keys all) :
    InStep all late trusted definitions lines' := by
  have hnodup := h.nodup hlines.nodup
  obtain ⟨added, heq, hadded⟩ := h.added
  have hextends := h.extends
  have hkeys := hextends.subset
  -- a line is one from before or a reversed form that has been added
  have hnew : ∀ key ∈ keys lines', key ∈ keys lines ∨ ∃ x items, key = reversedName x ∧
      (x, items) ∈ lines ∧ ReflTransGen (Holds lines) name x ∧
      (key, items.reverse.map (reversedItem lines)) ∈ lines' ∧
      ∀ i ∈ items, i ∈ keys lines → reversedName i ∈ keys lines' := by
    intro key hkey
    rw [heq, keys_append, List.mem_append] at hkey
    refine hkey.imp_right fun hkey => ?_
    obtain ⟨v, hv⟩ := mem_keys.1 hkey
    obtain ⟨x, items, hx, hentry, hreach, hitems⟩ := hadded _ hv
    obtain ⟨hkey, rfl⟩ := Prod.mk.inj hentry
    exact ⟨x, items, hkey, hx, hreach, heq ▸ List.mem_append_right _ hv, hitems⟩
  refine ⟨hsub, hnodup, fun key hkey => ?_, fun e he i hi => ?_, fun t ht hmem => ?_, ?_⟩
  · rcases hnew key hkey with hkey | ⟨x, items, hkey, hx, -⟩
    · exact (hlines.labelled key hkey).imp_right fun ⟨x, hx, hkey⟩ => ⟨x, hkeys hx, hkey⟩
    · exact .inr ⟨x, hkeys (mem_keys_of_mem hx), hkey⟩
  · rw [heq] at he
    rcases List.mem_append.1 he with he | he
    · exact (hlines.closed e he i hi).mono hkeys
    · obtain ⟨x, items, hx, rfl, hreach, hitems⟩ := hadded e he
      obtain ⟨j, hj, rfl⟩ := List.mem_map.1 hi
      rw [List.mem_reverse] at hj
      by_cases hmem : j ∈ keys lines
      · rw [reversedItem_of_mem hmem]
        exact fun _ => .inl (hitems j hj hmem)
      · rw [reversedItem_of_notMem hmem]
        exact fun hall => absurd (hripe j (hreach.tail ⟨_, hx, hj⟩) hall).2 hmem
  · rcases hnew _ hmem with hmem | ⟨x, items, hname, hx, hreach, hentry, hitems⟩
    · exact (hlines.mirrors t ht hmem).mono hextends
    · obtain rfl := reversedName_inj.1 hname
      refine ⟨items, hextends.lookup_eq_some (lookup_of_mem hlines.nodup hx), ?_,
        fun i hi hall => ?_⟩
      · rw [lookup_of_mem hnodup hentry]
        congr 1
        apply List.map_congr_left
        intro i hi
        exact hripe.reversedItem_eq hlines hreach hx (List.mem_reverse.1 hi)
      · obtain ⟨hi', hthere⟩ := hripe i (hreach.tail ⟨_, hx, hi⟩) hall
        exact ⟨hi', hitems i hi hthere⟩
  · intro before name items after hsplit hafter
    exact hextends.lookup_eq_some (hlines.laid before name items after hsplit hafter)

/-- The reversed form of a ripe line is ripe. -/
theorem Ripe.reversed (hturned : ∀ t, trusted t → trusted (reversedName t))
    (h : Ripe all trusted lines name) (hlines : InStep all late trusted definitions lines)
    (hlines' : InStep all late trusted definitions lines') (hextends : Extends lines lines')
    (hname : name ∈ keys lines) (hreversed : reversedName name ∈ keys lines') :
    Ripe all trusted lines' (reversedName name) := by
  -- it leads to the reversed forms of the lines that the line leads to
  have hreach : ∀ m, ReflTransGen (Holds lines') (reversedName name) m → m ∈ keys all →
      ∃ x, ReflTransGen (Holds lines) name x ∧ x ∈ keys lines ∧ trusted x ∧
        m = reversedName x ∧ m ∈ keys lines' := by
    intro m hm
    induction hm with
    | refl =>
      exact fun _ => ⟨name, .refl, hname, (h name .refl (hlines.within hname)).1, rfl, hreversed⟩
    | @tail b m _ hbm ih =>
      intro hall
      obtain ⟨turned, hb, hm⟩ := hbm
      obtain ⟨x, hx, hmem, htrusted, rfl, hthere⟩ := ih (hlines'.within (mem_keys_of_mem hb))
      obtain ⟨items, hitems, hturn, hdeep⟩ := hlines'.mirrors x htrusted hthere
      rw [lookup_of_mem hlines'.nodup hb] at hturn
      cases hturn
      obtain ⟨i, hi, rfl⟩ := List.mem_map.1 hm
      rw [List.mem_reverse] at hi
      have hxi : Holds lines x i :=
        Holds.of_extends hlines'.nodup hextends hmem ⟨items, mem_of_lookup hitems, hi⟩
      by_cases hi' : i ∈ keys all
      · rw [reversedItem_of_mem hi']
        obtain ⟨hi'', hthere'⟩ := hdeep i hi hi'
        exact ⟨i, hx.tail hxi, (h i (hx.tail hxi) hi').2, hi'', rfl, hthere'⟩
      · rw [reversedItem_of_notMem hi'] at hall
        exact absurd hall hi'
  intro m hm hall
  obtain ⟨x, -, -, htrusted, rfl, hthere⟩ := hreach m hm hall
  exact ⟨hturned x htrusted, hthere⟩

end Reversals

/-! ## Arranged items -/

section Arranged

variable {turn : String → String} {val : String → List String}

/-- Lines stay in step when items are arranged in which only ripe names are reversed, and the names
come to what the items come to if the reversed forms of trusted lines do. -/
theorem keeps_inStep (hturned : ∀ t, trusted t → trusted (reversedName t))
    (hline : ∀ t, trusted t → t ∈ keys all → reversedName t ∈ keys all →
      val (reversedName t) = (val t).reverse.map turn)
    (hatom : ∀ t, t ∉ keys all → val t = (val t).reverse.map turn) :
    Keeps (keys all) (InStep all late trusted definitions)
      (fun under lines s => Present all late lines s ∧ (under = true → Ripe all trusted lines s))
      turn val where
  mono := fun _ _ _ _ hextends hlines' hs =>
    ⟨hs.1.mono hextends.subset, fun hunder => (hs.2 hunder).mono hextends hlines'⟩
  weaken := fun _ _ hs => ⟨hs.1, fun h => absurd h Bool.false_ne_true⟩
  reverse := by
    rintro lines lines' s s' hlines ⟨hpresent, hripe⟩ heq hsub
    replace hripe := hripe rfl
    by_cases hmem : s ∈ keys lines
    · obtain ⟨rfl, hreversed⟩ := reversed_of_reverseOne heq hmem (hripe.unchanged hsub)
      have hlines' := hreversed.inStep hripe hlines hsub
      refine ⟨hlines', ⟨fun _ => .inl hreversed.asked, fun _ => ?_⟩, ?_⟩
      · exact hripe.reversed hturned hlines hlines' (extends_of_reverseOne heq) hmem hreversed.asked
      · exact hline s (hripe s .refl (hlines.within hmem)).1 (hlines.within hmem)
          (hsub hreversed.asked)
    · rw [reverseOne_of_notMem hmem] at heq
      cases heq
      exact ⟨hlines, ⟨hpresent, fun _ => hripe⟩, hatom s fun hall => hmem (hripe s .refl hall).2⟩

/-- The case in which the names themselves are what they come to. -/
theorem keeps_names (hturned : ∀ t, trusted t → trusted (reversedName t)) :
    Keeps (keys all) (InStep all late trusted definitions)
      (fun under lines s => Present all late lines s ∧ (under = true → Ripe all trusted lines s))
      (reversedItem all) fun s => [s] :=
  keeps_inStep hturned
    (fun t _ hall _ => by rw [← reversedItem_of_mem hall]; rfl)
    (fun t hall => by rw [List.reverse_singleton, List.map_singleton, reversedItem_of_notMem hall])

end Arranged

/-! ## Definitions one after the other -/

/-- Definitions among which the reversed forms of trusted lines are not defined themselves, no
trusted line is defined when its reversed form has been made, and only ripe names are reversed. -/
structure Ruled (all : Lines) (late trusted : String → Prop)
    (definitions : List (String × List LineItem)) : Prop where
  turned : ∀ s, trusted s → trusted (reversedName s)
  unlabelled : ∀ s, trusted s → reversedName s ∉ keys definitions
  steady : ∀ before name items after lines names lines',
    definitions = before ++ (name, items) :: after → before.foldlM addLine [] = .ok lines →
    arrange lines items = .ok (names, lines') → InStep all late trusted before lines' →
    trusted name → reversedName name ∉ keys lines'
  ripe : ∀ before name items after lines, definitions = before ++ (name, items) :: after →
    before.foldlM addLine [] = .ok lines → InStep all late trusted before lines →
    ∀ p ∈ LineItem.placesOf false items,
      Present all late lines p.2 ∧ (p.1 = true → Ripe all trusted lines p.2)

theorem inStep_nil : InStep all late trusted [] [] where
  within := List.nil_subset _
  nodup := List.nodup_nil
  labelled := by simp [keys]
  closed := by simp
  mirrors := by simp [keys]
  laid := by simp

/-- Lines stay in step when one is defined whose reversed form is not there, and that is none
itself. -/
theorem InStep.put {name : String} {items : List LineItem} {names : List String}
    (hlines : InStep all late trusted before lines)
    (hnames : ∀ s ∈ names, Present all late lines s)
    (hvalue : names.flatMap (fun s => [s]) =
      LineItem.valueOf (reversedItem all) (fun s => [s]) items)
    (hsub : keys (put name names lines) ⊆ keys all)
    (hplain : ∀ s, trusted s → reversedName s ≠ name)
    (hsteady : trusted name → reversedName name ∉ keys lines) :
    InStep all late trusted (before ++ [(name, items)]) (put name names lines) := by
  have hkeys : keys lines ⊆ keys (Table.put name names lines) := keys_subset_put name names
  refine ⟨hsub, nodup_keys_put hlines.nodup _ _, fun s hs => ?_, fun e he i hi => ?_,
    fun s hs hmem => ?_, fun b n its a hsplit hafter => ?_⟩
  · rw [keys_append, List.mem_append]
    rcases mem_keys_put.1 hs with hs | rfl
    · rcases hlines.labelled s hs with hs | ⟨x, hx, hs⟩
      · exact .inl (.inl hs)
      · exact .inr ⟨x, hkeys hx, hs⟩
    · exact .inl (.inr (List.mem_singleton_self _))
  · rcases mem_of_mem_put he with rfl | he
    · exact (hnames i hi).mono hkeys
    · exact (hlines.closed e he i hi).mono hkeys
  · have hmem' := (mem_keys_put.1 hmem).resolve_right (hplain s hs)
    have hne : s ≠ name := by
      rintro rfl
      exact hsteady hs hmem'
    obtain ⟨its, hits, hreversed, hdeep⟩ := hlines.mirrors s hs hmem'
    refine ⟨its, ?_, ?_, fun i hi hall => (hdeep i hi hall).imp_right fun h => hkeys h⟩
    · rw [lookup_put, if_neg hne, hits]
    · rw [lookup_put, if_neg (hplain s hs), hreversed]
  · rw [lookup_put]
    rcases List.eq_nil_or_concat a with rfl | ⟨a, last, rfl⟩
    · obtain ⟨-, hlast⟩ := List.append_inj' hsplit rfl
      cases hlast
      rw [if_pos rfl, ← hvalue, List.flatMap_singleton']
    · rw [List.concat_eq_append, ← List.cons_append, ← List.append_assoc] at hsplit
      obtain ⟨hbefore, hlast⟩ := List.append_inj' hsplit rfl
      cases hlast
      rw [List.concat_eq_append, keys_append, List.mem_append, not_or] at hafter
      rw [if_neg fun heq : n = name => hafter.2 (heq ▸ List.mem_singleton_self _)]
      exact hlines.laid b n its a hbefore hafter.1

/-- Definitions keep lines in step, one after the other. -/
theorem Ruled.inStep (h : Ruled all late trusted definitions)
    (before : List (String × List LineItem)) : ∀ {after : List (String × List LineItem)}
      {lines : Lines}, definitions = before ++ after → before.foldlM addLine [] = .ok lines →
      keys lines ⊆ keys all → InStep all late trusted before lines := by
  induction before using List.reverseRecOn with
  | nil =>
    intro after lines _ hlines _
    cases hlines
    exact inStep_nil
  | append_singleton before l ih =>
    intro after lines heq hlines hsub
    obtain ⟨name, items⟩ := l
    rw [List.append_assoc] at heq
    obtain ⟨lines₀, hbefore, hlast⟩ := foldlM_append_eq_ok.1 hlines
    obtain ⟨names, lines₁, harrange, hlast⟩ := foldlM_cons_eq_ok.1 hlast
    cases hlast
    have hsub₁ : keys lines₁ ⊆ keys all := List.Subset.trans (keys_subset_put name names) hsub
    have hlines₀ := ih heq hbefore (List.Subset.trans
      (extends_of_arrange _ _ harrange).subset hsub₁)
    have hlaid := (keeps_names h.turned).arrange lines₀ false items hlines₀
      (h.ripe before name items after lines₀ heq hbefore hlines₀) harrange hsub₁
    refine hlaid.sound.put (fun s hs => (hlaid.each s hs).1) hlaid.value hsub ?_ ?_
    · rintro s hs rfl
      apply h.unlabelled s hs
      rw [heq, keys_append]
      exact List.mem_append_right _ List.mem_cons_self
    · exact h.steady before name items after lines₀ names lines₁ heq hbefore harrange hlaid.sound

end Beamline.Deck

import Beamline.Deck.Reversal
import Beamline.Proofs.Table
import Mathlib.Logic.Function.Iterate
import Mathlib.Logic.Relation

/-!
# Reversals that end

* `Reversal.run_eq_some_iff` : a run ends if and only if after some steps nothing is pending;
* `Settled` : no item of a line waits for the reversed form of a line to be made;
* `Reversal.Progress` : what holds while a line is being reversed, `Reversal.progress_step`;
* `Reversal.exists_run` : among settled lines every run ends, for each step makes one of the
  reversed lines that are missing or leaves less pending;
* `Reversal.Progress.of_run` : what holds at the end of a run that ends;
* `reverseOne_of_mem`, `reversed_of_reverseOne` : what reversing one name then comes to;
* `Extends`, `extends_of_reverseOne` : it leaves the lines that are there.
-/

namespace Beamline.Deck

open Table

theorem reversedName_inj {a b : String} : reversedName a = reversedName b ↔ a = b :=
  String.append_left_inj _

theorem reversedItem_of_mem {lines : Lines} {item : String} (h : item ∈ keys lines) :
    reversedItem lines item = reversedName item := by
  rw [reversedItem, if_pos (has_iff.2 h)]

theorem reversedItem_of_notMem {lines : Lines} {item : String} (h : item ∉ keys lines) :
    reversedItem lines item = item := by
  rw [reversedItem, if_neg (by rwa [has_iff])]

namespace Reversal

variable {r : Reversal} {name : String} {rest : List String}

/-! ## Steps and runs -/

theorem step_of_mem (hpending : r.pending = name :: rest)
    (h : reversedName name ∈ keys r.lines) : r.step = ⟨r.lines, rest⟩ := by
  rw [step, hpending]
  dsimp only
  rw [if_pos (has_iff.2 h)]

theorem step_of_notMem (hpending : r.pending = name :: rest) (h : name ∉ keys r.lines) :
    r.step = ⟨r.lines, rest⟩ := by
  rw [step, hpending]
  dsimp only
  rw [lookup_eq_none.2 h]
  split <;> rfl

theorem step_of_lookup (hpending : r.pending = name :: rest)
    (hnew : reversedName name ∉ keys r.lines) {items : List String}
    (hitems : r.lines.lookup name = some items) :
    r.step = ⟨r.lines ++ [(reversedName name, items.reverse.map (reversedItem r.lines))],
      items.filter (has r.lines) ++ rest⟩ := by
  rw [step, hpending]
  dsimp only
  rw [if_neg (by rwa [has_iff]), hitems, ← put_of_notMem hnew]

theorem run_of_nil (h : r.pending = []) : r.run = some r.lines := by
  rw [run, h]

theorem run_of_ne_nil (h : r.pending ≠ []) : r.run = r.step.run := by
  rw [run]
  split
  · exact absurd ‹_› h
  · rfl

/-- A run ends with lines if and only if these are there when nothing is pending any more. -/
theorem run_eq_some_iff {lines : Lines} :
    r.run = some lines ↔ ∃ n, (step^[n] r).pending = [] ∧ (step^[n] r).lines = lines := by
  constructor
  · apply run.partial_correctness fun r lines =>
      ∃ n, (step^[n] r).pending = [] ∧ (step^[n] r).lines = lines
    intro run ih r lines h
    split at h
    · exact ⟨0, ‹_›, Option.some.inj h⟩
    · obtain ⟨n, hn⟩ := ih _ _ h
      exact ⟨n + 1, hn⟩
  · rintro ⟨n, hpending, hlines⟩
    induction n generalizing r with
    | zero =>
      rw [← hlines]
      exact run_of_nil hpending
    | succ n ih =>
      by_cases h : r.pending = []
      · -- nothing pending stays so
        have hstep : r.step = r := by rw [step, h]
        rw [Function.iterate_succ_apply, hstep] at hpending hlines
        exact ih hpending hlines
      · rw [run_of_ne_nil h]
        exact ih hpending hlines

end Reversal

/-! ## Settled lines -/

/-- An item with the name of the reversed form of a line is a line itself. -/
def Settled (lines : Lines) : Prop :=
  ∀ e ∈ lines, ∀ i ∈ e.2, ∀ x ∈ keys lines, i = reversedName x → i ∈ keys lines

instance (lines : Lines) : Decidable (Settled lines) :=
  inferInstanceAs (Decidable
    (∀ e ∈ lines, ∀ i ∈ e.2, ∀ x ∈ keys lines, i = reversedName x → i ∈ keys lines))

/-- Some lines with reversed forms behind them. -/
def Extends (lines lines' : Lines) : Prop :=
  ∃ added, lines' = lines ++ added ∧ ∀ s ∈ keys added, ∃ x, s = reversedName x

namespace Extends

variable {lines lines' lines'' : Lines}

theorem refl (lines : Lines) : Extends lines lines :=
  ⟨[], (List.append_nil lines).symm, nofun⟩

theorem trans (h : Extends lines lines') (h' : Extends lines' lines'') : Extends lines lines'' := by
  obtain ⟨added, rfl, hadded⟩ := h
  obtain ⟨added', rfl, hadded'⟩ := h'
  refine ⟨added ++ added', List.append_assoc .., ?_⟩
  rw [keys_append, List.forall_mem_append]
  exact ⟨hadded, hadded'⟩

theorem isPrefix (h : Extends lines lines') : lines <+: lines' := by
  obtain ⟨added, rfl, -⟩ := h
  exact List.prefix_append _ _

theorem subset (h : Extends lines lines') : keys lines ⊆ keys lines' :=
  (h.isPrefix.map Prod.fst).subset

theorem lookup_eq_some (h : Extends lines lines') {s : String} {items : List String}
    (hs : lines.lookup s = some items) : lines'.lookup s = some items := by
  obtain ⟨added, rfl, -⟩ := h
  rw [List.lookup_append, hs]
  rfl

/-- The lines that are new are reversed forms. -/
theorem mem_keys (h : Extends lines lines') {s : String} (hs : s ∈ keys lines') :
    s ∈ keys lines ∨ ∃ x, s = reversedName x := by
  obtain ⟨added, rfl, hadded⟩ := h
  rw [keys_append, List.mem_append] at hs
  exact hs.imp_right (hadded s)

end Extends

/-- The line `a` has the item `b`. -/
def Holds (lines : Lines) (a b : String) : Prop :=
  ∃ items, (a, items) ∈ lines ∧ b ∈ items

namespace Reversal

variable {start : Lines} {asked : String} {r : Reversal}

/-- The lines that have been made from the lines at the start: reversed forms of lines that the line
`asked` leads to. The lines in them have reversed forms too, or are pending. -/
def Mirrored (start : Lines) (asked : String) (lines : Lines) (pending : List String)
    (added : Lines) : Prop :=
  ∀ e ∈ added, ∃ x items, (x, items) ∈ start ∧
    e = (reversedName x, items.reverse.map (reversedItem start)) ∧
    Relation.ReflTransGen (Holds start) asked x ∧
    ∀ i ∈ items, i ∈ keys start → reversedName i ∈ keys lines ∨ i ∈ pending

/-- What holds while the line `asked` is being reversed. -/
structure Progress (start : Lines) (asked : String) (r : Reversal) : Prop where
  pending : ∀ x ∈ r.pending, x ∈ keys start ∧ Relation.ReflTransGen (Holds start) asked x
  promised : reversedName asked ∈ keys r.lines ∨ asked ∈ r.pending
  added : ∃ added, r.lines = start ++ added ∧ Mirrored start asked r.lines r.pending added
  nodup : (keys start).Nodup → (keys r.lines).Nodup

theorem progress_start (h : asked ∈ keys start) : Progress start asked ⟨start, [asked]⟩ where
  pending := List.forall_mem_singleton.2 ⟨h, .refl⟩
  promised := .inr (List.mem_singleton_self asked)
  added := ⟨[], (List.append_nil start).symm, by simp [Mirrored]⟩
  nodup := id

/-- No item of a line that `asked` leads to has become a line since the start. -/
def Unchanged (start : Lines) (asked : String) (lines : Lines) : Prop :=
  ∀ e ∈ start, Relation.ReflTransGen (Holds start) asked e.1 → ∀ i ∈ e.2,
    i ∈ keys lines → i ∈ keys start

/-- The items of settled lines are lines now if they were lines at the start. -/
theorem Progress.unchanged (h : Progress start asked r) (hsettled : Settled start) :
    Unchanged start asked r.lines := by
  intro e he _ i hi hmem
  obtain ⟨added, hlines, hadded⟩ := h.added
  rw [hlines, keys_append, List.mem_append] at hmem
  refine hmem.elim id fun hmem => ?_
  obtain ⟨v, hv⟩ := mem_keys.1 hmem
  obtain ⟨x, items, hx, heq, -⟩ := hadded _ hv
  exact hsettled e he i hi x (mem_keys_of_mem hx) (Prod.mk.inj heq).1

theorem Progress.subset (h : Progress start asked r) : keys start ⊆ keys r.lines := by
  obtain ⟨added, hlines, -⟩ := h.added
  rw [hlines, keys_append]
  exact List.subset_append_left _ _

theorem Mirrored.mono {lines lines' : Lines} {pending pending' : List String} {added : Lines}
    (h : Mirrored start asked lines pending added)
    (hmono : ∀ i, reversedName i ∈ keys lines ∨ i ∈ pending →
      reversedName i ∈ keys lines' ∨ i ∈ pending') :
    Mirrored start asked lines' pending' added := by
  intro e he
  obtain ⟨x, items, hx, heq, hreach, hitems⟩ := h e he
  exact ⟨x, items, hx, heq, hreach, fun i hi hstart => hmono i (hitems i hi hstart)⟩

/-- Taking away a pending line whose reversed form is there. -/
theorem Progress.drop {name : String} {rest : List String} (h : Progress start asked r)
    (hpending : r.pending = name :: rest) (hthere : reversedName name ∈ keys r.lines) :
    Progress start asked ⟨r.lines, rest⟩ := by
  have hmono : ∀ i, reversedName i ∈ keys r.lines ∨ i ∈ r.pending →
      reversedName i ∈ keys r.lines ∨ i ∈ rest := by
    intro i hi
    rw [hpending, List.mem_cons, ← or_assoc] at hi
    exact hi.imp_left fun hi => hi.elim id fun heq => heq ▸ hthere
  obtain ⟨added, hlines, hadded⟩ := h.added
  exact ⟨fun x hx => h.pending x (hpending ▸ List.mem_cons_of_mem _ hx), hmono _ h.promised,
    ⟨added, hlines, hadded.mono hmono⟩, h.nodup⟩

/-- Making the reversed form of a pending line. -/
theorem Progress.reverse {name : String} {rest items : List String}
    (hunchanged : Unchanged start asked r.lines) (h : Progress start asked r)
    (hpending : r.pending = name :: rest)
    (hitems : (name, items) ∈ start) (hnew : reversedName name ∉ keys r.lines) :
    Progress start asked
      ⟨r.lines ++ [(reversedName name, items.reverse.map (reversedItem r.lines))],
        items.filter (has r.lines) ++ rest⟩ := by
  have hreach := (h.pending name (hpending ▸ List.mem_cons_self)).2
  have hiff : ∀ i ∈ items, (i ∈ keys r.lines ↔ i ∈ keys start) :=
    fun i hi => ⟨hunchanged _ hitems hreach i hi, fun hstart => h.subset hstart⟩
  have hmono : ∀ i, reversedName i ∈ keys r.lines ∨ i ∈ r.pending →
      reversedName i ∈ keys (r.lines ++
        [(reversedName name, items.reverse.map (reversedItem r.lines))]) ∨
      i ∈ items.filter (has r.lines) ++ rest := by
    intro i hi
    rw [keys_append, List.mem_append, List.mem_append]
    rcases hi with hi | hi
    · exact .inl (.inl hi)
    · rw [hpending] at hi
      rcases List.mem_cons.1 hi with rfl | hi
      · exact .inl (.inr (List.mem_singleton_self _))
      · exact .inr (.inr hi)
  obtain ⟨added, hlines, hadded⟩ := h.added
  constructor
  · intro x hx
    rcases List.mem_append.1 hx with hx | hx
    · obtain ⟨hx, hhas⟩ := List.mem_filter.1 hx
      exact ⟨(hiff x hx).1 (has_iff.1 hhas), hreach.tail ⟨items, hitems, hx⟩⟩
    · exact h.pending x (hpending ▸ List.mem_cons_of_mem _ hx)
  · exact hmono _ h.promised
  · refine ⟨added ++ [(reversedName name, items.reverse.map (reversedItem r.lines))],
      by rw [hlines, List.append_assoc], ?_⟩
    intro e he
    rcases List.mem_append.1 he with he | he
    · exact hadded.mono hmono e he
    · rw [List.mem_singleton] at he
      refine ⟨name, items, hitems, ?_, hreach, fun i hi hstart => .inr ?_⟩
      · rw [he]
        congr 1
        apply List.map_congr_left
        intro i hi
        unfold reversedItem
        congr 1
        rw [eq_iff_iff, has_iff, has_iff]
        exact hiff i (List.mem_reverse.1 hi)
      · exact List.mem_append_left _ (List.mem_filter.2 ⟨hi, has_iff.2 ((hiff i hi).2 hstart)⟩)
  · intro hnodup
    rw [keys_append]
    exact nodup_append_singleton (h.nodup hnodup) hnew

/-- The lines at the start that have no reversed form yet. -/
def missing (start : Lines) (r : Reversal) : List String :=
  (keys start).filter fun x => !has r.lines (reversedName x)

theorem missing_append {name : String} {items pending : List String} :
    missing start ⟨r.lines ++ [(reversedName name, items)], pending⟩ =
      (missing start r).filter (· != name) := by
  rw [missing, missing, List.filter_filter]
  congr 1
  funext x
  have hname : (reversedName name == reversedName x) = (x == name) := by
    rw [Bool.eq_iff_iff, beq_iff_eq, beq_iff_eq, reversedName_inj, eq_comm]
  simp only [has, List.any_append, List.any_cons, List.any_nil, Bool.or_false, Bool.not_or, hname]
  exact Bool.and_comm _ _

/-- A step keeps what holds, and makes a line that is missing or leaves less pending. -/
theorem progress_step (hunchanged : Unchanged start asked r.lines) (h : Progress start asked r)
    (hne : r.pending ≠ []) : Progress start asked r.step ∧
      Prod.Lex (· < ·) (· < ·) ((missing start r.step).length, r.step.pending.length)
        ((missing start r).length, r.pending.length) := by
  obtain ⟨name, rest, hpending⟩ := List.exists_cons_of_ne_nil hne
  have hname : name ∈ keys start := (h.pending name (hpending ▸ List.mem_cons_self)).1
  by_cases hthere : reversedName name ∈ keys r.lines
  · rw [step_of_mem hpending hthere]
    refine ⟨h.drop hpending hthere, .right _ ?_⟩
    rw [hpending]
    exact Nat.lt_succ_self _
  · obtain ⟨items, hitems⟩ := exists_lookup hname
    have hlookup : r.lines.lookup name = some items := by
      obtain ⟨added, hlines, -⟩ := h.added
      rw [hlines, List.lookup_append, hitems]
      rfl
    rw [step_of_lookup hpending hthere hlookup]
    refine ⟨h.reverse hunchanged hpending (mem_of_lookup hitems) hthere, .left _ _ ?_⟩
    rw [missing_append, List.length_filter_lt_length_iff_exists]
    exact ⟨name, List.mem_filter.2 ⟨hname, by
      rwa [Bool.not_eq_true', Bool.eq_false_iff, ne_eq, has_iff]⟩, by simp⟩

/-- Among settled lines, what holds at the start of a reversal holds at its end. -/
theorem exists_run (hsettled : Settled start) {r : Reversal} (h : Progress start asked r) :
    ∃ lines, r.run = some lines ∧ Progress start asked ⟨lines, []⟩ := by
  by_cases hpending : r.pending = []
  · refine ⟨r.lines, run_of_nil hpending, ?_⟩
    rw [← hpending]
    exact h
  · obtain ⟨hstep, hless⟩ := progress_step (h.unchanged hsettled) h hpending
    rw [run_of_ne_nil hpending]
    exact exists_run hsettled hstep
termination_by ((missing start r).length, r.pending.length)
decreasing_by exact hless

theorem extends_step (r : Reversal) : Extends r.lines r.step.lines := by
  match hpending : r.pending with
  | [] =>
    rw [step, hpending]
    exact .refl _
  | name :: rest =>
    by_cases hthere : reversedName name ∈ keys r.lines
    · rw [step_of_mem hpending hthere]
      exact .refl _
    · cases hlookup : r.lines.lookup name with
      | none =>
        rw [step_of_notMem hpending (lookup_eq_none.1 hlookup)]
        exact .refl _
      | some items =>
        rw [step_of_lookup hpending hthere hlookup]
        exact ⟨_, rfl, List.forall_mem_singleton.2 ⟨name, rfl⟩⟩

theorem extends_iterate (n : Nat) : ∀ r : Reversal, Extends r.lines (step^[n] r).lines := by
  induction n with
  | zero => exact fun r => .refl _
  | succ n ih => exact fun r => r.extends_step.trans (ih r.step)

/-- What holds at the start of a run that ends holds at its end, unless an item of a line that is
being reversed becomes a line on the way. -/
theorem Progress.of_run {lines : Lines} (hunchanged : Unchanged start asked lines)
    (h : Progress start asked r) (hrun : r.run = some lines) :
    Progress start asked ⟨lines, []⟩ := by
  obtain ⟨n, hpending, hlines⟩ := run_eq_some_iff.1 hrun
  clear hrun
  induction n generalizing r with
  | zero =>
    rw [← hlines, ← hpending]
    exact h
  | succ n ih =>
    by_cases hnone : r.pending = []
    · have hstep : r.step = r := by rw [step, hnone]
      rw [Function.iterate_succ_apply, hstep] at hpending hlines
      exact ih h hpending hlines
    · have hsub : keys r.lines ⊆ keys lines := by
        rw [← hlines]
        exact (extends_iterate (n + 1) r).subset
      have hstep := progress_step
        (fun e he hreach i hi hmem => hunchanged e he hreach i hi (hsub hmem)) h hnone
      exact ih hstep.1 hpending hlines

end Reversal

/-! ## Reversing one name -/

/-- Lines from which the reversed form of `name` has been made, with all that this takes. -/
structure Reversed (start : Lines) (name : String) (lines : Lines) : Prop where
  asked : reversedName name ∈ keys lines
  added : ∃ added, lines = start ++ added ∧ ∀ e ∈ added, ∃ x items, (x, items) ∈ start ∧
    e = (reversedName x, items.reverse.map (reversedItem start)) ∧
    Relation.ReflTransGen (Holds start) name x ∧
    ∀ i ∈ items, i ∈ keys start → reversedName i ∈ keys lines
  nodup : (keys start).Nodup → (keys lines).Nodup

theorem Reversed.extends {start lines : Lines} {name : String} (h : Reversed start name lines) :
    Extends start lines := by
  obtain ⟨added, heq, hadded⟩ := h.added
  refine ⟨added, heq, fun s hs => ?_⟩
  obtain ⟨v, hv⟩ := mem_keys.1 hs
  obtain ⟨x, items, -, hentry, -⟩ := hadded _ hv
  exact ⟨x, (Prod.mk.inj hentry).1⟩

theorem Reversal.Progress.reversed {start lines : Lines} {name : String}
    (h : Progress start name ⟨lines, []⟩) : Reversed start name lines := by
  obtain ⟨added, hlines, hadded⟩ := h.added
  refine ⟨by simpa using h.promised, ⟨added, hlines, fun e he => ?_⟩, h.nodup⟩
  obtain ⟨x, items, hx, heq, hreach, hitems⟩ := hadded e he
  exact ⟨x, items, hx, heq, hreach, fun i hi hstart => by simpa using hitems i hi hstart⟩

theorem reverseOne_of_notMem {lines : Lines} {name : String} (h : name ∉ keys lines) :
    reverseOne lines name = .ok (name, lines) := by
  rw [reverseOne, if_neg (by rwa [has_iff])]

/-- Among settled lines the reversal of a line ends. -/
theorem reverseOne_of_mem {lines : Lines} (hsettled : Settled lines) {name : String}
    (h : name ∈ keys lines) : ∃ lines', reverseOne lines name = .ok (reversedName name, lines') ∧
      Reversed lines name lines' := by
  obtain ⟨lines', hrun, hprogress⟩ :=
    Reversal.exists_run hsettled (Reversal.progress_start h)
  exact ⟨lines', by rw [reverseOne, if_pos (has_iff.2 h), hrun], hprogress.reversed⟩

theorem run_of_reverseOne {lines lines' : Lines} {name name' : String}
    (h : reverseOne lines name = .ok (name', lines')) (hname : name ∈ keys lines) :
    name' = reversedName name ∧ Reversal.run ⟨lines, [name]⟩ = some lines' := by
  rw [reverseOne, if_pos (has_iff.2 hname)] at h
  cases hrun : Reversal.run ⟨lines, [name]⟩ with
  | none =>
    rw [hrun] at h
    cases h
  | some lines₁ =>
    rw [hrun] at h
    cases h
    exact ⟨rfl, rfl⟩

/-- What the reversal of a line that ends comes to, if no item has become a line in it. -/
theorem reversed_of_reverseOne {lines lines' : Lines} {name name' : String}
    (h : reverseOne lines name = .ok (name', lines')) (hname : name ∈ keys lines)
    (hunchanged : Reversal.Unchanged lines name lines') :
    name' = reversedName name ∧ Reversed lines name lines' := by
  obtain ⟨hname', hrun⟩ := run_of_reverseOne h hname
  exact ⟨hname', ((Reversal.progress_start hname).of_run hunchanged hrun).reversed⟩

/-- The reversal of a name leaves the lines that are there and adds reversed forms behind them. -/
theorem extends_of_reverseOne {lines lines' : Lines} {name name' : String}
    (h : reverseOne lines name = .ok (name', lines')) : Extends lines lines' := by
  by_cases hname : name ∈ keys lines
  · obtain ⟨n, -, rfl⟩ := Reversal.run_eq_some_iff.1 (run_of_reverseOne h hname).2
    exact Reversal.extends_iterate n ⟨lines, [name]⟩
  · rw [reverseOne_of_notMem hname] at h
    cases h
    exact .refl _

end Beamline.Deck

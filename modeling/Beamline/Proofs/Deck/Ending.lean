import Beamline.Proofs.Deck.Answers

/-!
# Reading that ends

* `reversal_ends` : reversals among settled lines end, and so does reading a deck in which no line
  names the reversed form of a line before it is there;
* `Reversal.Swelling` : lines of which ever new reversed forms are made;
* `Reversal.not_reversal_ends` : so not every reversal ends.
-/

namespace Beamline

open Deck Table

/-! ## Reversals that end -/

/-- Among settled lines the reversal of every line ends. So does reading every deck in which no
line names the reversed form of a line that is not there yet. -/
theorem reversal_ends (lines : Lines) (name : String) (d : Dialect) (text : String) :
    (Settled lines → ∃ n, (Reversal.step^[n] ⟨lines, [name]⟩).pending = []) ∧
    (WaitsForNone (lineDefinitions d text) → ∀ number line,
      (Document.readDeck d text).1 ≠ .error (.importing d number (.endlessReversal line))) := by
  constructor
  · intro hsettled
    by_cases hname : name ∈ keys lines
    · obtain ⟨lines', hrun, -⟩ :=
        Reversal.exists_run hsettled (Reversal.progress_start hname)
      obtain ⟨n, hpending, -⟩ := Reversal.run_eq_some_iff.1 hrun
      exact ⟨n, hpending⟩
    · exact ⟨1, by rw [Function.iterate_one, Reversal.step_of_notMem rfl hname]⟩
  · intro hwaits number line h
    obtain ⟨lines', hlines, -⟩ := foldlM_addLine hwaits (I := fun _ => True)
      (fun _ _ _ _ _ _ _ _ _ _ => trivial) _ [] [] rfl (grounded_nil _) (List.Subset.refl _) trivial
    exact Document.readDeck_raises hlines _ h d number _ rfl line rfl

/-- A deck in which a line is reversed that has reversed lines in it. -/
def foldedDeck : String :=
  "Q: QUAD, L=1\nA: LINE=(Q, 2*Q)\nB: LINE=(A, -A)\nC: LINE=(2*(B, -B), -(Q, -B))\n"

theorem plain_foldedDeck : ∀ l ∈ lineDefinitions .elegant foldedDeck,
    ∀ s ∈ LineItem.namesOf l.2, ¬ "_REV".toList <:+ s.toList := by
  decide +kernel

/-- `reversal_ends` for lines that name each other, and for this deck. -/
theorem reversal_ends_foldedDeck :
    (∃ n, (Reversal.step^[n] ⟨[("A", ["B", "Q"]), ("B", ["A", "A_REV"]), ("A_REV", [])],
      ["A"]⟩).pending = []) ∧
    (Document.readDeck .elegant foldedDeck).1 ≠
      .error (.importing .elegant 4 (.endlessReversal "B")) := by
  have hends := reversal_ends [("A", ["B", "Q"]), ("B", ["A", "A_REV"]), ("A_REV", [])] "A"
    .elegant foldedDeck
  have hplain : WaitsForNone (lineDefinitions .elegant foldedDeck) :=
    waitsForNone_of_plain fun l hl s hs => ne_reversedName_of_suffix (plain_foldedDeck l hl s hs)
  exact ⟨hends.1 (by decide +kernel), hends.2 hplain 4 "B"⟩

/-! ## A reversal that does not end -/

namespace Deck.Reversal

theorem length_iterate_reversedName (n : Nat) (x : String) :
    (reversedName^[n] x).length = x.length + 4 * n := by
  induction n with
  | zero => rfl
  | succ n ih =>
    rw [Function.iterate_succ_apply', reversedName, String.length_append, ih]
    show _ + 4 = _
    omega

/-- Names of the same length stay apart however often each is reversed. -/
theorem iterate_reversedName_inj {x y : String} (hlength : x.length = y.length) {m n : Nat} :
    reversedName^[m] x = reversedName^[n] y ↔ m = n ∧ x = y := by
  refine ⟨fun heq => ?_, fun ⟨hmn, hxy⟩ => by rw [hmn, hxy]⟩
  have hlengths := congrArg String.length heq
  rw [length_iterate_reversedName, length_iterate_reversedName] at hlengths
  obtain rfl : m = n := by omega
  have hinjective : Function.Injective reversedName := fun _ _ => reversedName_inj.1
  exact ⟨rfl, hinjective.iterate m heq⟩

/-- One line in a line that is pending alone. -/
theorem step_of_singleton {r : Reversal} {x i : String} (hpending : r.pending = [x])
    (hnew : reversedName x ∉ keys r.lines) (hx : r.lines.lookup x = some [i])
    (hi : i ∈ keys r.lines) :
    r.step = ⟨r.lines ++ [(reversedName x, [reversedName i])], [i]⟩ := by
  rw [step_of_lookup hpending hnew hx, List.filter_cons_of_pos (has_iff.2 hi)]
  simp [reversedItem_of_mem hi]

variable {a b : String} {k : Nat} {r : Reversal}

/-- Lines in which the two lines `a` and `b` have been reversed `k` times. Each names the other, the
second by a name for it that is the next to be made; the first is pending. -/
structure Swelling (a b : String) (k : Nat) (r : Reversal) : Prop where
  pending : r.pending = [reversedName^[k] a]
  first : r.lines.lookup (reversedName^[k] a) = some [reversedName^[k] b]
  second : r.lines.lookup (reversedName^[k] b) = some [reversedName^[k + 1] a]
  fresh : ∀ j > k, reversedName^[j] a ∉ keys r.lines ∧ reversedName^[j] b ∉ keys r.lines

/-- Two steps reverse the two lines once more. -/
theorem Swelling.step (hlength : a.length = b.length) (hne : a ≠ b) (h : Swelling a b k r) :
    Swelling a b (k + 1) r.step.step := by
  have hdistinct : ∀ m n, reversedName^[m] a ≠ reversedName^[n] b :=
    fun m n heq => hne ((iterate_reversedName_inj hlength).1 heq).2
  have hgrows : ∀ (x : String) {m n : Nat}, m < n → reversedName^[n] x ≠ reversedName^[m] x :=
    fun x m n hlt heq => Nat.ne_of_gt hlt ((iterate_reversedName_inj rfl).1 heq).1
  have hsucc : ∀ (x : String) (n : Nat),
      reversedName (reversedName^[n] x) = reversedName^[n + 1] x :=
    fun x n => (Function.iterate_succ_apply' reversedName n x).symm
  obtain ⟨hpending, hfirst, hsecond, hfresh⟩ := h
  have hb : reversedName^[k] b ∈ keys r.lines := lookup_isSome.1 (by rw [hsecond]; rfl)
  have hstep := step_of_singleton hpending
    (by rw [hsucc]; exact (hfresh _ (Nat.lt_succ_self k)).1) hfirst hb
  rw [hsucc, hsucc] at hstep
  have hmem : ∀ s, s ∈ keys r.step.lines ↔ s ∈ keys r.lines ∨ s = reversedName^[k + 1] a := by
    intro s
    rw [hstep, keys_append, List.mem_append]
    exact or_congr_right List.mem_singleton
  have hstep' := step_of_singleton (r := r.step) (x := reversedName^[k] b)
    (i := reversedName^[k + 1] a) (by rw [hstep])
    (by
      rw [hsucc, hmem, not_or]
      exact ⟨(hfresh _ (Nat.lt_succ_self k)).2, (hdistinct _ _).symm⟩)
    (by rw [hstep, List.lookup_append, hsecond]; rfl) ((hmem _).2 (.inr rfl))
  rw [hsucc, hsucc] at hstep'
  have hnone : ∀ s, s ∉ keys r.lines → r.step.step.lines.lookup s =
      [(reversedName^[k + 1] a, [reversedName^[k + 1] b]),
        (reversedName^[k + 1] b, [reversedName^[k + 2] a])].lookup s := by
    intro s hs
    rw [hstep', hstep, List.append_assoc, List.lookup_append, lookup_eq_none.2 hs]
    rfl
  constructor
  · rw [hstep']
  · rw [hnone _ (hfresh _ (Nat.lt_succ_self k)).1]
    exact List.lookup_cons_self
  · rw [hnone _ (hfresh _ (Nat.lt_succ_self k)).2, List.lookup_cons,
      beq_eq_false_iff_ne.2 (hdistinct _ _).symm]
    exact List.lookup_cons_self
  · intro j hj
    rw [hstep', keys_append, List.mem_append, List.mem_append, hmem, hmem]
    simp only [keys, List.map_cons, List.map_nil, List.mem_singleton, not_or]
    exact ⟨⟨⟨(hfresh j (by omega)).1, hgrows a hj⟩, hdistinct _ _⟩,
      ⟨(hfresh j (by omega)).2, (hdistinct _ _).symm⟩, hgrows b hj⟩

theorem Swelling.iterate (hlength : a.length = b.length) (hne : a ≠ b) (h : Swelling a b 0 r)
    (n : Nat) : Swelling a b n (Reversal.step^[2 * n] r) := by
  induction n with
  | zero => exact h
  | succ n ih =>
    rw [Nat.mul_succ, Function.iterate_succ_apply', Function.iterate_succ_apply']
    exact ih.step hlength hne

/-- Where nothing is pending any more, nothing is pending later. -/
theorem pending_iterate {n : Nat} (h : (Reversal.step^[n] r).pending = []) :
    ∀ m, (Reversal.step^[m + n] r).pending = [] := by
  intro m
  induction m with
  | zero => rwa [Nat.zero_add]
  | succ m ih => rw [Nat.succ_add, Function.iterate_succ_apply', Reversal.step, ih]; exact ih

/-- Not every reversal ends: of two lines that name each other's reversed forms, ever new reversed
forms are made. -/
theorem not_reversal_ends : ¬ ∀ (lines : Lines) (name : String),
    ∃ n, (Reversal.step^[n] ⟨lines, [name]⟩).pending = [] := by
  intro hends
  obtain ⟨n, hn⟩ := hends [("A", ["B"]), ("B", ["A_REV"])] "A"
  have hstart : Swelling "A" "B" 0 ⟨[("A", ["B"]), ("B", ["A_REV"])], ["A"]⟩ := by
    refine ⟨rfl, rfl, rfl, fun j hj => ?_⟩
    have hlong : ∀ x : String, x.length = 1 → reversedName^[j] x ∉ ["A", "B"] := by
      intro x hx hmem
      have hlength := length_iterate_reversedName j x
      simp only [List.mem_cons, List.not_mem_nil, or_false] at hmem
      rcases hmem with heq | heq <;>
      · rw [heq, hx] at hlength
        have : 1 = 1 + 4 * j := hlength
        omega
    exact ⟨hlong "A" rfl, hlong "B" rfl⟩
  have hlength : "A".length = "B".length := rfl
  have hpending := (hstart.iterate hlength (by decide) n).pending
  rw [Nat.two_mul, pending_iterate hn n] at hpending
  cases hpending

end Deck.Reversal

end Beamline

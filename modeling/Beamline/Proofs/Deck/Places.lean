import Beamline.Deck.Clause

/-!
# Where clauses start

* `Clause.StartsBy` : a clause starts on one of the first lines of a deck;
* `Gathered.Placed`, `Reading.Placed` : what has been read of a deck starts there, kept by every
  line of an elegant deck and by every character of a MAD-X deck;
* `startsBy_cut` : the clauses of a deck start on its lines.
-/

namespace Beamline.Deck

/-- A clause starts on one of the first `n` lines. -/
def Clause.StartsBy (n : Nat) (c : Clause) : Prop :=
  1 ≤ c.line ∧ c.line ≤ n

theorem Clause.StartsBy.mono {m n : Nat} {c : Clause} (h : c.StartsBy m) (hle : m ≤ n) :
    c.StartsBy n :=
  ⟨h.1, Nat.le_trans h.2 hle⟩

/-! ## elegant -/

/-- All that was gathered from a deck starts on one of its first `n` lines. -/
structure Gathered.Placed (n : Nat) (g : Gathered) : Prop where
  clauses : ∀ c ∈ g.clauses, c.StartsBy n
  pending : ∀ c ∈ g.pending, c.StartsBy n

namespace Gathered

variable {n : Nat} {g : Gathered}

theorem Placed.finish (h : g.Placed n) : g.finish.Placed n := by
  unfold Gathered.finish
  split
  · exact h
  · rename_i c hc
    refine ⟨fun c' hc' => ?_, nofun⟩
    rcases List.mem_append.1 hc' with hc' | hc'
    · exact h.clauses c' hc'
    · cases List.mem_singleton.1 hc'
      exact h.pending c hc

theorem Placed.extend (h : g.Placed n) (code : List Char) :
    (g.extend (n + 1) code).Placed (n + 1) := by
  have hclauses : ∀ c ∈ g.clauses, c.StartsBy (n + 1) := fun c hc =>
    (h.clauses c hc).mono (Nat.le_succ n)
  unfold Gathered.extend
  split
  · exact ⟨hclauses, fun c hc => (h.pending c hc).mono (Nat.le_succ n)⟩
  · refine ⟨hclauses, fun c hc => ?_⟩
    cases hc
    cases hpending : g.pending with
    | none => exact ⟨Nat.le_add_left 1 n, Nat.le_refl _⟩
    | some c => exact (h.pending c hpending).mono (Nat.le_succ n)

/-- The next line keeps what was gathered on the lines so far. -/
theorem Placed.line (h : g.Placed n) (raw : List Char) : (g.line (n + 1) raw).Placed (n + 1) := by
  unfold Gathered.line
  dsimp only
  have htitled : (if g.title.isNone && g.clauses.isEmpty && g.pending.isNone then
      { g with title := (splitComment none raw).2.bind titleIn? } else g).Placed n := by
    split
    · exact ⟨h.clauses, h.pending⟩
    · exact h
  split
  · exact htitled.extend _
  · exact (htitled.extend _).finish

theorem Placed.lines (ls : List (List Char)) : ∀ {n : Nat} {g : Gathered}, g.Placed n →
    (g.lines (n + 1) ls).Placed (n + ls.length) := by
  induction ls with
  | nil => exact fun h => h
  | cons l ls ih =>
    intro n g h
    have hrest := ih (h.line l)
    rwa [Nat.add_right_comm] at hrest

end Gathered

theorem startsBy_cutElegant {text : List Char} {c : Clause} (h : c ∈ (cutElegant text).clauses) :
    c.StartsBy (lines text).length := by
  have hstart : ({} : Gathered).Placed 0 := ⟨nofun, nofun⟩
  have hplaced := (hstart.lines (lines text)).finish
  rw [Nat.zero_add] at hplaced
  exact hplaced.clauses c h

/-! ## MAD-X -/

theorem length_lines_cons (c : Char) (cs : List Char) :
    (lines (c :: cs)).length =
      if c = '\n' then (lines cs).length + 1 else max 1 (lines cs).length := by
  rw [lines]
  split
  · rfl
  · cases lines cs <;> simp

/-- What has been read of a deck of `n` lines starts on one of them, if `cs` is the rest of it. -/
structure Reading.Placed (n : Nat) (r : Reading) (cs : List Char) : Prop where
  pos : 1 ≤ r.line
  rest : r.line + (lines cs).length ≤ n + 1
  start : r.taken ≠ [] → 1 ≤ r.start ∧ r.start ≤ n

namespace Reading.Placed

variable {n : Nat} {r : Reading} {c : Char} {cs : List Char}

/-- A character stands on one of the lines. -/
theorem line_le (h : r.Placed n (c :: cs)) : r.line ≤ n := by
  have hrest := h.rest
  rw [length_lines_cons] at hrest
  split at hrest <;> omega

/-- A character is passed over, the line feeds counted. -/
theorem count (h : r.Placed n (c :: cs)) : (r.count c).Placed n cs := by
  have hrest := h.rest
  rw [length_lines_cons] at hrest
  unfold Reading.count
  split at hrest <;> rename_i hc
  · rw [if_pos hc]
    exact ⟨Nat.le_add_left 1 _, by dsimp only; omega, h.start⟩
  · rw [if_neg hc]
    exact ⟨h.pos, by omega, h.start⟩

theorem skip (h : r.Placed n (c :: cs)) (hc : c ≠ '\n') : r.Placed n cs := by
  have hcount := h.count
  rwa [Reading.count, if_neg hc] at hcount

/-- A character that is taken stands behind the start of its clause. -/
theorem take (h : r.Placed n (c :: cs)) : (r.take c).Placed n (c :: cs) := by
  refine ⟨h.pos, h.rest, fun _ => ?_⟩
  unfold Reading.take
  dsimp only
  split
  · exact ⟨h.pos, h.line_le⟩
  · rename_i htaken
    exact h.start fun hnil => htaken (by rw [hnil]; rfl)

theorem newline (h : r.Placed n ('\n' :: cs)) : r.newline.Placed n cs := by
  have hcount := h.count
  refine ⟨hcount.pos, hcount.rest, fun htaken => h.start fun hnil => htaken ?_⟩
  rw [Reading.newline, hnil]
  rfl

theorem clear (h : r.Placed n cs) : ({ r with taken := [] } : Reading).Placed n cs :=
  ⟨h.pos, h.rest, fun hne => absurd rfl hne⟩

theorem clause? (h : r.Placed n cs) {c : Clause} (hc : c ∈ r.clause?) : c.StartsBy n := by
  unfold Reading.clause? Deck.clause? at hc
  split at hc
  · cases hc
  · rename_i hne
    cases hc
    refine h.start fun hnil => ?_
    rw [hnil] at hne
    exact hne rfl

end Reading.Placed

theorem startsBy_cutMadxFrom {n : Nat} {c : Clause} (within : Within) (r : Reading)
    (cs : List Char) (hr : r.Placed n cs) (h : c ∈ cutMadxFrom within r cs) : c.StartsBy n := by
  fun_induction cutMadxFrom within r cs with
  | case1 => exact hr.clause? (Option.mem_toList.1 h)
  | case2 r c cs mark ih => exact ih hr.take.count h
  | case3 r cs ih => exact ih hr.newline h
  | case4 r c cs hc ih => exact ih (hr.skip hc) h
  | case5 r c cs star hc ih =>
    rw [Bool.and_eq_true, decide_eq_true_eq] at hc
    exact ih (hr.skip (by rw [hc.2]; decide)) h
  | case6 r c cs star hc ih => exact ih hr.count h
  | case7 r cs ih => exact ih ((hr.skip (by decide)).skip (by decide)) h
  | case8 r cs ih => exact ih ((hr.skip (by decide)).skip (by decide)) h
  | case9 r cs _ _ ih => exact ih (hr.skip (by decide)) h
  | case10 r cs _ _ _ ih =>
    rcases List.mem_append.1 h with h | h
    · exact hr.clause? (Option.mem_toList.1 h)
    · exact ih (hr.skip (by decide)).clear h
  | case11 r cs _ _ _ _ ih => exact ih hr.newline h
  | case12 r c cs _ _ _ _ hc _ ih => exact ih (hr.skip hc) h
  | case13 r c cs _ _ _ _ hc _ ih => exact ih (hr.take.skip hc) h

theorem startsBy_cutMadx {text : List Char} {c : Clause} (h : c ∈ (cutMadx text).clauses) :
    c.StartsBy (lines text).length := by
  refine startsBy_cutMadxFrom .code {} text ⟨Nat.le_refl 1, ?_, fun hne => absurd rfl hne⟩ h
  exact Nat.le_of_eq (Nat.add_comm _ _)

/-- Every clause of a deck starts on one of its lines. -/
theorem startsBy_cut {d : Dialect} {text : List Char} {c : Clause}
    (h : c ∈ (cut d text).clauses) : c.StartsBy (lines text).length := by
  cases d with
  | elegant => exact startsBy_cutElegant h
  | madx => exact startsBy_cutMadx h

end Beamline.Deck

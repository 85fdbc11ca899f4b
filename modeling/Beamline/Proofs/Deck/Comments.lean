import Beamline.Proofs.Deck.Likeness
import Beamline.Proofs.Deck.Splitting

/-!
# Comment lines of an elegant deck

A comment line has no code, and so no mark `&` at the end of it: it ends the statement that would go
on behind the line before.

* `IsComment` : a line with nothing but a comment;
* `GoesOn`, `TakesUp` : lines behind which a statement goes on, and lines that have more of it;
* `Gathered.Same`, `Gathered.OneMore` : what two decks have come to, clauses that read the same or
  one clause more in the second, and `Gathered.Kept.lines` : lines that follow in both keep this;
* `Gathered.lines_finish` : what it changes to end a statement that goes on;
* `cut_commented` : a comment line between two lines changes no clause unless a statement has code
  in the lines before and behind it, and then makes two clauses of that statement.
-/

namespace Beamline.Deck

open Text

variable {l comment : List Char} {ls : List (List Char)}

/-! ## Lines -/

/-- A line that holds nothing but a comment, perhaps behind blanks. -/
structure IsComment (l : List Char) : Prop where
  newline : '\n' ∉ l
  form : ∃ blanks text, l = blanks ++ '!' :: text ∧ ∀ c ∈ blanks, isBlank c

/-- The last of the lines that have code ends in `&`, and so do all lines behind it. -/
def GoesOn (ls : List (List Char)) : Prop :=
  ∃ front l marks, ls = front ++ l :: marks ∧ ¬ Codeless l ∧ (codeOf l).2 ∧
    ∀ m ∈ marks, Codeless m ∧ (codeOf m).2

/-- All lines before the first one that has code end in `&`. -/
def TakesUp (ls : List (List Char)) : Prop :=
  ∃ marks l rest, ls = marks ++ l :: rest ∧ ¬ Codeless l ∧ ∀ m ∈ marks, Codeless m ∧ (codeOf m).2

theorem codeOf_comment (h : IsComment comment) : codeOf comment = ([], false) := by
  obtain ⟨blanks, text, rfl, hblanks⟩ := h.form
  have hcode : (splitComment none (blanks ++ '!' :: text)).1 = blanks := by
    clear h
    induction blanks with
    | nil => rfl
    | cons c blanks ih =>
      rw [List.forall_mem_cons] at hblanks
      have hbang : c ≠ '!' := by
        rintro rfl
        exact absurd hblanks.1 (by decide)
      have hquote : isQuote c = false := by
        rw [isQuote, Bool.or_eq_false_iff, beq_eq_false_iff_ne, beq_eq_false_iff_ne]
        constructor <;> rintro rfl <;> exact absurd hblanks.1 (by decide)
      rw [List.cons_append, splitComment, if_neg hbang, hquote]
      exact congrArg (c :: ·) (ih hblanks.2)
  have htrim : trim blanks = [] := by
    rw [trim, trimStart, List.dropWhile_eq_nil_iff.2 hblanks]
    rfl
  rw [codeOf, hcode, htrim]
  rfl

theorem takesUp_cons : TakesUp (l :: ls) ↔ ¬ Codeless l ∨ (codeOf l).2 ∧ TakesUp ls := by
  constructor
  · rintro ⟨marks, l', rest, heq, hl', hmarks⟩
    cases marks with
    | nil =>
      cases heq
      exact .inl hl'
    | cons m marks =>
      cases heq
      rw [List.forall_mem_cons] at hmarks
      exact .inr ⟨hmarks.1.2, marks, l', rest, rfl, hl', hmarks.2⟩
  · intro h
    by_cases hl : Codeless l
    · obtain ⟨hon, marks, l', rest, rfl, hl', hmarks⟩ := h.resolve_left (not_not_intro hl)
      exact ⟨l :: marks, l', rest, rfl, hl', List.forall_mem_cons.2 ⟨⟨hl, hon⟩, hmarks⟩⟩
    · exact ⟨[], l, ls, rfl, hl, nofun⟩

theorem goesOn_concat : GoesOn (ls ++ [l]) ↔ (codeOf l).2 ∧ (¬ Codeless l ∨ GoesOn ls) := by
  constructor
  · rintro ⟨front, l', marks, heq, hl', hon, hmarks⟩
    rcases marks.eq_nil_or_concat with rfl | ⟨marks, m, rfl⟩
    · obtain ⟨rfl, rfl⟩ := List.append_singleton_inj.1 heq
      exact ⟨hon, .inl hl'⟩
    · rw [List.concat_eq_append, List.forall_mem_append, List.forall_mem_singleton] at hmarks
      rw [List.concat_eq_append, ← List.cons_append, ← List.append_assoc] at heq
      obtain ⟨rfl, rfl⟩ := List.append_singleton_inj.1 heq
      exact ⟨hmarks.2.2, .inr ⟨front, l', marks, rfl, hl', hon, hmarks.1⟩⟩
  · rintro ⟨hon, h⟩
    by_cases hl : Codeless l
    · obtain ⟨front, l', marks, rfl, hl', hon', hmarks⟩ := h.resolve_left (not_not_intro hl)
      refine ⟨front, l', marks ++ [l], by rw [List.append_assoc, List.cons_append], hl', hon', ?_⟩
      rw [List.forall_mem_append, List.forall_mem_singleton]
      exact ⟨hmarks, hl, hon⟩
    · exact ⟨ls, l, [], rfl, hl, hon, nofun⟩

/-! ## What lines have come to -/

namespace Gathered

variable {g h : Gathered}

/-- The first statement has begun. -/
def Begun (g : Gathered) : Prop :=
  g.clauses ≠ [] ∨ g.pending ≠ none

/-- Behind the start of the first statement no line is read as a title. -/
theorem line_of_begun (hg : g.Begun) (n : Nat) (l : List Char) : g.line n l =
    if (codeOf l).2 then g.extend n (codeOf l).1 else (g.extend n (codeOf l).1).finish := by
  have hfresh : (g.title.isNone && g.clauses.isEmpty && g.pending.isNone) = false := by
    rcases hg with hg | hg
    · simp [hg]
    · simp [Option.isSome_iff_ne_none.2 hg]
  have htitle : (if g.title.isNone && g.clauses.isEmpty && g.pending.isNone then
      { g with title := (splitComment none l).2.bind titleIn? } else g) = g := by
    rw [hfresh]
    rfl
  conv_rhs => rw [← htitle]
  rfl

theorem extend_of_ne_nil (g : Gathered) (n : Nat) {code : List Char} (hcode : code ≠ []) :
    ∃ c, g.extend n code = { g with pending := some c } ∧
      c.text = (g.pending.map Clause.text).getD [] ++ code ++ [' '] := by
  rw [extend, if_neg (by rwa [List.isEmpty_iff])]
  cases hpending : g.pending with
  | none => exact ⟨_, rfl, rfl⟩
  | some c => exact ⟨_, rfl, rfl⟩

theorem extend_codeless (hl : Codeless l) (g : Gathered) (n : Nat) :
    g.extend n (codeOf l).1 = g := by
  have hcode : (codeOf l).1 = [] := hl
  rw [hcode]
  rfl

theorem extend_code (hl : ¬ Codeless l) (g : Gathered) (n : Nat) :
    ∃ c, g.extend n (codeOf l).1 = { g with pending := some c } := by
  obtain ⟨c, hextend, -⟩ := extend_of_ne_nil g n hl
  exact ⟨c, hextend⟩

theorem finish_of_some {c : Clause} (hpending : g.pending = some c) : g.finish =
    { g with clauses := g.clauses ++ [{ c with text := trim c.text }], pending := none } := by
  rw [finish, hpending]

/-! ### The statement that goes on -/

theorem pending_line (g : Gathered) (n : Nat) (l : List Char) :
    (g.line n l).pending ≠ none ↔ (codeOf l).2 ∧ (¬ Codeless l ∨ g.pending ≠ none) := by
  obtain ⟨title, hline⟩ := exists_line g n l
  rw [hline]
  split <;> rename_i hon
  · by_cases hl : Codeless l
    · rw [extend_codeless hl]
      exact ⟨fun hg => ⟨hon, .inr hg⟩, fun hg => hg.2.resolve_left (not_not_intro hl)⟩
    · obtain ⟨c, hextend⟩ := extend_code hl ({ g with title := title } : Gathered) n
      rw [hextend]
      exact ⟨fun _ => ⟨hon, .inl hl⟩, fun _ => Option.some_ne_none c⟩
  · rw [pending_finish]
    exact ⟨fun hne => absurd rfl hne, fun hg => absurd hg.1 hon⟩

/-- A statement goes on behind lines if one is pending. -/
theorem pending_lines (ls : List (List Char)) :
    (({} : Gathered).lines 1 ls).pending ≠ none ↔ GoesOn ls := by
  induction ls using List.reverseRecOn with
  | nil =>
    refine ⟨fun hne => absurd rfl hne, ?_⟩
    rintro ⟨front, l, marks, heq, -⟩
    simp at heq
  | append_singleton ls l ih =>
    rw [lines_append]
    show ((({} : Gathered).lines 1 ls).line _ l).pending ≠ none ↔ _
    rw [pending_line, goesOn_concat, ih]

theorem Begun.finish (hg : g.Begun) : g.finish.Begun := by
  cases hpending : g.pending with
  | none => rwa [finish_eq hpending]
  | some c =>
    rw [finish_of_some hpending]
    exact .inl (List.append_ne_nil_of_right_ne_nil _ (List.cons_ne_nil _ _))

theorem begun_line {n : Nat} (hg : g.Begun ∨ ¬ Codeless l) : (g.line n l).Begun := by
  obtain ⟨title, hline⟩ := exists_line g n l
  have hextend : (({ g with title := title } : Gathered).extend n (codeOf l).1).Begun := by
    by_cases hl : Codeless l
    · rw [extend_codeless hl]
      exact hg.resolve_right (not_not_intro hl)
    · obtain ⟨c, hextend⟩ := extend_code hl ({ g with title := title } : Gathered) n
      rw [hextend]
      exact .inr (Option.some_ne_none c)
  rw [hline]
  split
  · exact hextend
  · exact hextend.finish

theorem Begun.lines (ls : List (List Char)) : ∀ {g : Gathered} (n : Nat), g.Begun →
    (g.lines n ls).Begun := by
  induction ls with
  | nil => exact fun _ hg => hg
  | cons l ls ih => exact fun _ hg => ih _ (begun_line (.inl hg))

theorem begun_lines (hls : ∃ l ∈ ls, ¬ Codeless l) : ∀ (g : Gathered) (n : Nat),
    (g.lines n ls).Begun := by
  induction ls with
  | nil =>
    obtain ⟨l, hl, -⟩ := hls
    cases hl
  | cons l ls ih =>
    intro g n
    by_cases hl : Codeless l
    · obtain ⟨l', hl', hcode⟩ := hls
      rcases List.mem_cons.1 hl' with rfl | hl'
      · exact absurd hl hcode
      · exact ih ⟨l', hl', hcode⟩ _ _
    · exact (begun_line (.inr hl)).lines ls _

/-! ### Two decks side by side -/

/-- A relation between what two decks have come to that is kept when both add the same code to a
statement, and when both end one. -/
structure Kept (R : Gathered → Gathered → Prop) : Prop where
  begun : ∀ {g h}, R g h → g.Begun → h.Begun
  extend : ∀ {g h}, R g h → ∀ m n code, R (g.extend m code) (h.extend n code)
  finish : ∀ {g h}, R g h → R g.finish h.finish

/-- It is kept by lines that follow in both decks. -/
theorem Kept.lines {R : Gathered → Gathered → Prop} (hR : Kept R) (ls : List (List Char)) :
    ∀ {g h : Gathered} (m n : Nat), R g h → g.Begun → R (g.lines m ls) (h.lines n ls) := by
  induction ls with
  | nil => exact fun _ _ hgh _ => hgh
  | cons l ls ih =>
    intro g h m n hgh hg
    refine ih _ _ ?_ (begun_line (.inl hg))
    rw [line_of_begun hg, line_of_begun (hR.begun hgh hg)]
    split
    · exact hR.extend hgh m n _
    · exact hR.finish (hR.extend hgh m n _)

/-- The clauses read the same, wherever they stand. -/
structure Same (g h : Gathered) : Prop where
  clauses : g.clauses.map Clause.text = h.clauses.map Clause.text
  pending : g.pending.map Clause.text = h.pending.map Clause.text
  title : g.title = h.title

theorem Same.refl (g : Gathered) : g.Same g :=
  ⟨rfl, rfl, rfl⟩

theorem kept_same : Kept Same where
  begun := by
    intro g h hgh hg
    refine hg.imp (fun hne hnil => hne ?_) fun hne hnone => hne ?_
    · have hclauses := hgh.clauses
      rw [hnil] at hclauses
      exact List.map_eq_nil_iff.1 hclauses
    · have hpending := hgh.pending
      rw [hnone] at hpending
      exact Option.map_eq_none_iff.1 hpending
  extend := by
    intro g h hgh m n code
    by_cases hcode : code = []
    · subst hcode
      exact hgh
    · obtain ⟨c, hg, hc⟩ := extend_of_ne_nil g m hcode
      obtain ⟨c', hh, hc'⟩ := extend_of_ne_nil h n hcode
      rw [hg, hh]
      refine ⟨hgh.clauses, ?_, hgh.title⟩
      rw [Option.map_some, Option.map_some, hc, hc', hgh.pending]
  finish := by
    intro g h hgh
    have hpending := hgh.pending
    cases hg : g.pending with
    | none =>
      rw [hg] at hpending
      rw [finish_eq hg, finish_eq (Option.map_eq_none_iff.1 hpending.symm)]
      exact hgh
    | some c =>
      rw [hg] at hpending
      obtain ⟨c', hh, htext⟩ := Option.map_eq_some_iff.1 hpending.symm
      rw [finish_of_some hg, finish_of_some hh]
      refine ⟨?_, rfl, hgh.title⟩
      simp only [List.map_append, hgh.clauses, List.map_cons, htext]

/-- The second has one more clause. -/
structure OneMore (g h : Gathered) : Prop where
  clauses : h.clauses.length = g.clauses.length + 1
  pending : h.pending.isSome = g.pending.isSome

theorem kept_oneMore : Kept OneMore where
  begun := by
    intro g h hgh _
    refine .inl fun hnil => ?_
    have hlength := hgh.clauses
    rw [hnil] at hlength
    cases hlength
  extend := by
    intro g h hgh m n code
    by_cases hcode : code = []
    · subst hcode
      exact hgh
    · obtain ⟨c, hg, -⟩ := extend_of_ne_nil g m hcode
      obtain ⟨c', hh, -⟩ := extend_of_ne_nil h n hcode
      rw [hg, hh]
      exact ⟨hgh.clauses, rfl⟩
  finish := by
    intro g h hgh
    have hpending := hgh.pending
    cases hg : g.pending with
    | none =>
      rw [hg, Option.isSome_none, Option.isSome_eq_false_iff, Option.isNone_iff_eq_none] at hpending
      rw [finish_eq hg, finish_eq hpending]
      exact hgh
    | some c =>
      rw [hg] at hpending
      obtain ⟨c', hh⟩ := Option.isSome_iff_exists.1 hpending
      rw [finish_of_some hg, finish_of_some hh]
      refine ⟨?_, rfl⟩
      rw [List.length_append, List.length_append, hgh.clauses]
      rfl

/-! ### A statement that ends early -/

/-- To end the statement that goes on changes nothing if the lines that follow have no more of it,
and otherwise makes two clauses of it. -/
theorem lines_finish (ls : List (List Char)) : ∀ {g : Gathered} (m n : Nat), g.pending ≠ none →
    (¬ TakesUp ls → (g.lines m ls).finish.Same (g.finish.lines n ls).finish) ∧
    (TakesUp ls → (g.lines m ls).finish.OneMore (g.finish.lines n ls).finish) := by
  induction ls with
  | nil =>
    intro g m n hg
    refine ⟨fun _ => ?_, ?_⟩
    · show g.finish.Same g.finish.finish
      rw [finish_eq (pending_finish g)]
      exact .refl _
    · rintro ⟨marks, l, rest, heq, -⟩
      simp at heq
  | cons l ls ih =>
    intro g m n hg
    obtain ⟨c, hpending⟩ := Option.ne_none_iff_exists'.1 hg
    have hdone : g.finish.Begun := Begun.finish (.inr hg)
    rw [takesUp_cons, lines, lines, line_of_begun (.inr hg), line_of_begun hdone]
    by_cases hl : Codeless l
    · rw [extend_codeless hl, extend_codeless hl]
      split <;> rename_i hon
      · refine ⟨fun hup => ?_, fun hup => ?_⟩
        · exact (ih _ _ hg).1 fun h => hup (.inr ⟨hon, h⟩)
        · exact (ih _ _ hg).2 (hup.resolve_left (not_not_intro hl)).2
      · rw [finish_eq (pending_finish g)]
        refine ⟨fun _ => ?_, fun hup => absurd (hup.resolve_left (not_not_intro hl)).1 hon⟩
        exact kept_same.finish (kept_same.lines ls _ _ (.refl _) hdone)
    · obtain ⟨c₁, hfirst⟩ := extend_code hl g m
      obtain ⟨c₂, hsecond⟩ := extend_code hl g.finish n
      have hone : (g.extend m (codeOf l).1).OneMore (g.finish.extend n (codeOf l).1) := by
        rw [hfirst, hsecond, finish_of_some hpending]
        exact ⟨List.length_append, rfl⟩
      have hbegun : (g.extend m (codeOf l).1).Begun := by
        rw [hfirst]
        exact .inr (Option.some_ne_none c₁)
      refine ⟨fun hup => absurd (.inl hl) hup, fun _ => ?_⟩
      split
      · exact kept_oneMore.finish (kept_oneMore.lines ls _ _ hone hbegun)
      · exact kept_oneMore.finish
          (kept_oneMore.lines ls _ _ (kept_oneMore.finish hone) hbegun.finish)

/-- A comment line ends the statement that goes on. -/
theorem line_comment (hg : g.Begun) (hcomment : IsComment comment) (n : Nat) :
    g.line n comment = g.finish := by
  rw [line_of_begun hg, codeOf_comment hcomment]
  rfl

end Gathered

/-! ## Decks -/

/-- A deck whose first lines are `front`, with the line `comment` behind them. -/
def withLine (front comment back : List Char) : List Char :=
  front ++ '\n' :: (comment ++ '\n' :: back)

theorem lines_withLine (front : List Char) {comment : List Char} (h : '\n' ∉ comment)
    (back : List Char) : lines (withLine front comment back) =
      lines (front ++ ['\n']) ++ comment :: lines back := by
  rw [withLine, lines_append, lines_append comment]
  exact congrArg _ (congrArg (· ++ lines back) (titleLines_eq_singleton h))

/-- What the lines of an elegant deck come to. -/
def gathered (text : List Char) : Gathered :=
  ({} : Gathered).lines 1 (lines text)

theorem cut_elegant (text : List Char) :
    cut .elegant text = ⟨(gathered text).finish.clauses, (gathered text).finish.title⟩ :=
  rfl

/-- The lines before a comment line come to the same with and without it. Behind it the lines find
the statement that goes on ended. -/
theorem exists_gathered {front comment : List Char} (hcomment : IsComment comment)
    (hbegun : ∃ l ∈ lines (front ++ ['\n']), ¬ Codeless l) (back : List Char) :
    ∃ g : Gathered, g.Begun ∧ (g.pending ≠ none ↔ GoesOn (lines (front ++ ['\n']))) ∧
      (∃ m, gathered (front ++ '\n' :: back) = g.lines m (lines back)) ∧
      ∃ n, gathered (withLine front comment back) = g.finish.lines n (lines back) := by
  have hfront : (({} : Gathered).lines 1 (lines (front ++ ['\n']))).Begun :=
    Gathered.begun_lines hbegun {} 1
  refine ⟨_, hfront, Gathered.pending_lines _, ?_, ?_⟩
  · rw [gathered, lines_append, Gathered.lines_append]
    exact ⟨_, rfl⟩
  · rw [gathered, lines_withLine front hcomment.newline, Gathered.lines_append, Gathered.lines,
      Gathered.line_comment hfront hcomment]
    exact ⟨_, rfl⟩

/-- Decks whose clauses read the same describe the same document. -/
theorem readDeck_eq_of_same {text text' : List Char}
    (h : (gathered text).finish.Same (gathered text').finish) :
    (cut .elegant text').clauses.map Clause.text = (cut .elegant text).clauses.map Clause.text ∧
    (Document.readDeck .elegant (String.ofList text')).1.toOption =
      (Document.readDeck .elegant (String.ofList text)).1.toOption := by
  have htexts : (cut .elegant text').clauses.map Clause.text =
      (cut .elegant text).clauses.map Clause.text := h.clauses.symm
  have htitle : (cut .elegant text').title = (cut .elegant text).title := h.title.symm
  refine ⟨htexts, readDeck_eq_of_agree ?_⟩
  rw [String.toList_ofList, String.toList_ofList, htitle]
  exact Session.agree_of_texts (.refl True _) htexts

/-- What a comment line changes in an elegant deck if it stands between two lines, behind the start
of the first statement. If no statement has code both before and behind it, the clauses read the
same and the deck describes the same document. Otherwise the comment line ends that statement, and
what stands behind it is a clause of its own. -/
theorem cut_commented {front comment back : List Char} (hcomment : IsComment comment)
    (hbegun : ∃ l ∈ lines (front ++ ['\n']), ¬ Codeless l) :
    let plain := front ++ '\n' :: back
    let commented := withLine front comment back
    (¬ (GoesOn (lines (front ++ ['\n'])) ∧ TakesUp (lines back)) →
      (cut .elegant commented).clauses.map Clause.text =
        (cut .elegant plain).clauses.map Clause.text ∧
      (Document.readDeck .elegant (String.ofList commented)).1.toOption =
        (Document.readDeck .elegant (String.ofList plain)).1.toOption) ∧
    (GoesOn (lines (front ++ ['\n'])) ∧ TakesUp (lines back) →
      (cut .elegant commented).clauses.length = (cut .elegant plain).clauses.length + 1) := by
  intro plain commented
  obtain ⟨g, hbegun, hpending, ⟨m, hplain⟩, n, hcommented⟩ :=
    exists_gathered hcomment hbegun back
  constructor
  · intro hclear
    refine readDeck_eq_of_same ?_
    rw [hplain, hcommented]
    by_cases hon : g.pending = none
    · rw [Gathered.finish_eq hon]
      exact Gathered.kept_same.finish (Gathered.kept_same.lines _ _ _ (.refl g) hbegun)
    · exact (Gathered.lines_finish _ m n hon).1 fun hup => hclear ⟨hpending.1 hon, hup⟩
  · rintro ⟨hon, hup⟩
    rw [cut_elegant, cut_elegant, hplain, hcommented]
    exact ((Gathered.lines_finish _ m n (hpending.2 hon)).2 hup).clauses

theorem isComment_bang (text : List Char) (h : '\n' ∉ text) : IsComment ('!' :: text) :=
  ⟨by simpa using h, [], text, rfl, nofun⟩

/-- `cut_commented` for a comment line between two statements, and for one inside a statement. -/
theorem cut_commented_drift :
    (Document.readDeck .elegant (String.ofList
        (withLine "D: DRIF, L=1".toList "!L=2".toList "B: LINE=(D)".toList))).1.toOption =
      (Document.readDeck .elegant "D: DRIF, L=1\nB: LINE=(D)").1.toOption ∧
    (cut .elegant (withLine "D: DRIF, &".toList "!L=2".toList "L=1".toList)).clauses.length =
      (cut .elegant "D: DRIF, &\nL=1".toList).clauses.length + 1 := by
  have hcomment : IsComment "!L=2".toList := isComment_bang ['L', '=', '2'] (by decide)
  have hclosed := (@cut_commented "D: DRIF, L=1".toList _ "B: LINE=(D)".toList hcomment
    ⟨"D: DRIF, L=1".toList, by decide +kernel, by unfold Codeless; decide +kernel⟩).1
  have hopen := (@cut_commented "D: DRIF, &".toList _ "L=1".toList hcomment
    ⟨"D: DRIF, &".toList, by decide +kernel, by unfold Codeless; decide +kernel⟩).2
  refine ⟨(hclosed fun h => ?_).2, hopen ⟨?_, ?_⟩⟩
  · have hends : (codeOf "D: DRIF, L=1".toList).2 = false := by decide +kernel
    have hon := (@goesOn_concat "D: DRIF, L=1".toList []).1 h.1
    rw [hends] at hon
    exact absurd hon.1 Bool.false_ne_true
  · exact ⟨[], "D: DRIF, &".toList, [], rfl, by unfold Codeless; decide +kernel,
      by decide +kernel, nofun⟩
  · exact ⟨[], "L=1".toList, [], rfl, by unfold Codeless; decide +kernel, nofun⟩

/-- A comment line inside a statement that goes on in the next line is not without effect: the
statement ends in front of it, and the deck is not read any more. -/
theorem not_cut_commented : ¬ ∀ front comment back, IsComment comment →
    (∃ l ∈ lines (front ++ ['\n']), ¬ Codeless l) →
    (cut .elegant (withLine front comment back)).clauses.map Clause.text =
      (cut .elegant (front ++ '\n' :: back)).clauses.map Clause.text ∧
    (Document.readDeck .elegant (String.ofList (withLine front comment back))).1.toOption =
      (Document.readDeck .elegant (String.ofList (front ++ '\n' :: back))).1.toOption := by
  intro h
  have htexts := (h "D: DRIF, &".toList "! half a meter".toList "L=0.5".toList
    (isComment_bang " half a meter".toList (by decide +kernel))
    ⟨"D: DRIF, &".toList, by decide +kernel, by unfold Codeless; decide +kernel⟩).1
  have hplain : (cut .elegant ("D: DRIF, &".toList ++ '\n' :: "L=0.5".toList)).clauses.map
      Clause.text = ["D: DRIF,  L=0.5".toList] := by decide +kernel
  have hcommented : (cut .elegant (withLine "D: DRIF, &".toList "! half a meter".toList
      "L=0.5".toList)).clauses.map Clause.text = ["D: DRIF,".toList, "L=0.5".toList] := by
    decide +kernel
  rw [hplain, hcommented] at htexts
  exact absurd (congrArg List.length htexts) (by decide)

end Beamline.Deck

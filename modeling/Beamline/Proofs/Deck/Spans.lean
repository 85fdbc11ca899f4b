import Beamline.Deck.Clause
import Mathlib.Data.List.Infix
import Mathlib.Data.List.TakeWhile

/-!
# What the characters of a deck belong to

* `Span.Fits` : where the code, the quotations and the comments of a deck start and end;
* `Divided` : a deck divided into such spans, which can be done with every text
  (`exists_divided`);
* `portions` : the characters of the statements that a divided deck holds, each with its line;
* `Clause.Shows` : a clause that holds the characters of a statement and starts on the line of the
  first.
-/

namespace Beamline.Deck

open Text

/-! ## Spans -/

/-- A span of a deck: a character of the code, or a quotation or comment with its marks. -/
inductive Span where
  | code (c : Char)
  | quotation (text : List Char)
  | comment (text : List Char)
  deriving DecidableEq

def Span.text : Span → List Char
  | code c => [c]
  | quotation text => text
  | comment text => text

/-- What a span adds to its statement. -/
def Span.kept : Span → List Char
  | code c => [c]
  | quotation text => text
  | comment _ => []

/-- The marks of the comments that end with their line. -/
def lineMarks : Dialect → List (List Char)
  | .elegant => [['!']]
  | .madx => [['!'], ['/', '/']]

/-- The marks of the comments that have an end of their own. -/
def blockMarks : Dialect → List (List Char)
  | .elegant => []
  | .madx => [['/', '*']]

/-- A text inside a quotation that the mark `q` opened. In elegant no quotation goes on in the next
line. -/
structure Quotable (d : Dialect) (q : Char) (text : List Char) : Prop where
  mark : q ∉ text
  line : d = .elegant → '\n' ∉ text

/-- A text inside a comment that has an end of its own. -/
def Unclosed (text : List Char) : Prop :=
  ¬ ['*', '/'] <:+: text

/-- Nothing or the next line is behind. -/
def LineEnds (rest : List Char) : Prop :=
  ∀ c ∈ rest.head?, c = '\n'

/-- A span with `rest` behind it. -/
inductive Span.Fits (d : Dialect) : Span → List Char → Prop
  | code {c : Char} {rest : List Char} (hquote : isQuote c = false)
      (hcomment : ∀ mark ∈ lineMarks d ++ blockMarks d, ¬ mark <+: c :: rest) :
      Fits d (.code c) rest
  | quotation {q : Char} {text rest : List Char} (hq : isQuote q) (htext : Quotable d q text) :
      Fits d (.quotation (q :: (text ++ [q]))) rest
  | openQuotation {q : Char} {text rest : List Char} (hq : isQuote q) (htext : Quotable d q text)
      (hend : rest = [] ∨ d = .elegant ∧ LineEnds rest) : Fits d (.quotation (q :: text)) rest
  | lineComment {mark text rest : List Char} (hmark : mark ∈ lineMarks d) (htext : '\n' ∉ text)
      (hend : LineEnds rest) : Fits d (.comment (mark ++ text)) rest
  | blockComment {mark text rest : List Char} (hmark : mark ∈ blockMarks d)
      (htext : Unclosed text) : Fits d (.comment (mark ++ text ++ ['*', '/'])) rest
  | openComment {mark text : List Char} (hmark : mark ∈ blockMarks d) (htext : Unclosed text) :
      Fits d (.comment (mark ++ text)) []

/-- A text divided into spans. -/
inductive Divided (d : Dialect) : List Char → List Span → Prop
  | nil : Divided d [] []
  | cons {p : Span} {rest : List Char} {ps : List Span} (hp : p.Fits d rest)
      (hrest : Divided d rest ps) : Divided d (p.text ++ rest) (p :: ps)

/-! ## Every text can be divided -/

theorem exists_stop (stop : Char → Bool) (cs : List Char) : ∃ text rest, cs = text ++ rest ∧
    (∀ c ∈ text, stop c = false) ∧ ∀ c ∈ rest.head?, stop c := by
  refine ⟨cs.takeWhile (!stop ·), cs.dropWhile (!stop ·), List.takeWhile_append_dropWhile.symm,
    fun c hc => by simpa using List.mem_takeWhile_imp hc, fun c hc => ?_⟩
  have hstop := List.head?_dropWhile_not (fun c => !stop c) cs
  rw [Option.mem_def.1 hc] at hstop
  simpa using hstop

theorem unclosed_cons {c : Char} {text : List Char} :
    Unclosed (c :: text) ↔ ¬ ['*', '/'] <+: c :: text ∧ Unclosed text := by
  rw [Unclosed, Unclosed, List.infix_cons_iff, not_or]

theorem exists_close (cs : List Char) : Unclosed cs ∨
    ∃ text rest, cs = text ++ '*' :: '/' :: rest ∧ Unclosed text := by
  induction cs with
  | nil => exact .inl (by simp [Unclosed])
  | cons c cs ih =>
    by_cases hclose : ['*', '/'] <+: c :: cs
    · obtain ⟨rest, hrest⟩ := hclose
      exact .inr ⟨[], rest, hrest.symm, by simp [Unclosed]⟩
    · rcases ih with ih | ⟨text, rest, rfl, htext⟩
      · exact .inl (unclosed_cons.2 ⟨hclose, ih⟩)
      · refine .inr ⟨c :: text, rest, rfl, unclosed_cons.2 ⟨fun hprefix => hclose ?_, htext⟩⟩
        exact hprefix.trans (List.prefix_append (c :: text) _)

theorem exists_lineComment {d : Dialect} {mark : List Char} (hmark : mark ∈ lineMarks d)
    (cs : List Char) : ∃ p rest, mark ++ cs = Span.text p ++ rest ∧ p.Fits d rest := by
  obtain ⟨text, rest, rfl, htext, hend⟩ := exists_stop (· == '\n') cs
  refine ⟨_, rest, (List.append_assoc _ _ _).symm, .lineComment hmark (fun hmem => ?_) ?_⟩
  · simpa using htext _ hmem
  · simpa [LineEnds] using hend

theorem exists_blockComment {d : Dialect} {mark : List Char} (hmark : mark ∈ blockMarks d)
    (cs : List Char) : ∃ p rest, mark ++ cs = Span.text p ++ rest ∧ p.Fits d rest := by
  rcases exists_close cs with hcs | ⟨text, rest, rfl, htext⟩
  · exact ⟨_, [], (List.append_nil _).symm, .openComment hmark hcs⟩
  · exact ⟨_, rest, by simp [Span.text], .blockComment hmark htext⟩

theorem exists_quotation {d : Dialect} {q : Char} (hq : isQuote q) (cs : List Char) :
    ∃ p rest, q :: cs = Span.text p ++ rest ∧ p.Fits d rest := by
  obtain ⟨text, rest, rfl, htext, hend⟩ :=
    exists_stop (fun c => c == q || (d == .elegant && c == '\n')) cs
  simp only [Bool.or_eq_false_iff, Bool.and_eq_false_iff, beq_eq_false_iff_ne, Bool.or_eq_true,
    Bool.and_eq_true, beq_iff_eq] at htext hend
  have hquotable : Quotable d q text :=
    ⟨fun hmem => (htext _ hmem).1 rfl, fun hd hmem => (htext _ hmem).2.elim (· hd) (· rfl)⟩
  cases rest with
  | nil => exact ⟨_, [], rfl, .openQuotation hq hquotable (.inl rfl)⟩
  | cons c rest =>
    rcases hend c rfl with rfl | ⟨hd, rfl⟩
    · exact ⟨_, rest, by simp [Span.text], .quotation hq hquotable⟩
    · refine ⟨_, '\n' :: rest, rfl, .openQuotation hq hquotable (.inr ⟨hd, ?_⟩)⟩
      rintro _ ⟨⟩
      rfl

theorem lineMarks_ne_nil {d : Dialect} : ∀ mark ∈ lineMarks d, mark ≠ [] := by
  cases d <;> decide

theorem blockMarks_ne_nil {d : Dialect} : ∀ mark ∈ blockMarks d, mark ≠ [] := by
  cases d <;> decide

theorem Span.Fits.text_ne_nil {d : Dialect} {p : Span} {rest : List Char} (h : p.Fits d rest) :
    p.text ≠ [] := by
  cases h with
  | code => exact List.cons_ne_nil _ _
  | quotation => exact List.cons_ne_nil _ _
  | openQuotation => exact List.cons_ne_nil _ _
  | lineComment hmark => exact List.append_ne_nil_of_left_ne_nil (lineMarks_ne_nil _ hmark) _
  | blockComment => exact List.append_ne_nil_of_right_ne_nil _ (List.cons_ne_nil _ _)
  | openComment hmark => exact List.append_ne_nil_of_left_ne_nil (blockMarks_ne_nil _ hmark) _

/-- Every text starts with a span. -/
theorem exists_fits (d : Dialect) (c : Char) (cs : List Char) :
    ∃ p rest, c :: cs = Span.text p ++ rest ∧ p.Fits d rest := by
  by_cases hcomment : ∃ mark ∈ lineMarks d ++ blockMarks d, mark <+: c :: cs
  · obtain ⟨mark, hmark, rest, hrest⟩ := hcomment
    rw [← hrest]
    rcases List.mem_append.1 hmark with hmark | hmark
    · exact exists_lineComment hmark rest
    · exact exists_blockComment hmark rest
  · cases hquote : isQuote c with
    | true => exact exists_quotation hquote cs
    | false =>
      exact ⟨.code c, cs, rfl, .code hquote fun mark hmark hprefix =>
        hcomment ⟨mark, hmark, hprefix⟩⟩

/-- Every text can be divided. -/
theorem exists_divided (d : Dialect) (text : List Char) : ∃ ps, Divided d text ps := by
  match text with
  | [] => exact ⟨[], .nil⟩
  | c :: cs =>
    obtain ⟨p, rest, htext, hp⟩ := exists_fits d c cs
    have hlength := congrArg List.length htext
    have hpos := List.length_pos_of_ne_nil hp.text_ne_nil
    obtain ⟨ps, hps⟩ := exists_divided d rest
    exact ⟨p :: ps, htext ▸ .cons hp hps⟩
termination_by text.length
decreasing_by
  rw [List.length_append] at hlength
  omega

/-! ## Statements -/

/-- A character and the line that it stands on. -/
structure Glyph where
  line : Nat
  char : Char
  deriving DecidableEq, Repr

/-- The characters of a text that are no blanks, with their lines if the text starts on line `n`. -/
def glyphs (n : Nat) : List Char → List Glyph
  | [] => []
  | c :: cs =>
    (if isBlank c then [] else [⟨n, c⟩]) ++ glyphs (if c = '\n' then n + 1 else n) cs

/-- The character of the code that ends a statement, or in elegant a line. -/
def ending : Dialect → Char
  | .elegant => '\n'
  | .madx => ';'

/-- Some characters put in front of those of the first section. -/
def ahead (s : List Glyph) (all : List (List Glyph)) : List (List Glyph) :=
  all.modifyHead (s ++ ·)

/-- What stands between the ends in a deck, if it starts on line `n`. -/
def sections (d : Dialect) (n : Nat) : List Span → List (List Glyph)
  | [] => [[]]
  | p :: ps =>
    let later := sections d (n + p.text.count '\n') ps
    if p = .code (ending d) then [] :: later else ahead (glyphs n p.kept) later

/-- Each line that ends in `&` joined with the next one in place of that mark. -/
def joined : List (List Glyph) → List (List Glyph)
  | [] => [[]]
  | s :: rest =>
    if s.getLast?.map Glyph.char = some '&' then ahead s.dropLast (joined rest)
    else s :: joined rest

/-- The characters of the statements of a divided deck. -/
def portions (d : Dialect) (ps : List Span) : List (List Glyph) :=
  let all := sections d 1 ps
  (match d with
    | .elegant => joined all
    | .madx => all).filter (!·.isEmpty)

/-! ### Lines -/

/-- A character of a text that starts on line `n`, with the line that it stands on. -/
def Glyph.StandsIn (n : Nat) (text : List Char) (g : Glyph) : Prop :=
  ∃ before after, text = before ++ g.char :: after ∧ g.line = n + before.count '\n'

section Lines

variable {d : Dialect} {n : Nat} {text rest : List Char} {g : Glyph} {s : List Glyph}

theorem Glyph.StandsIn.append (h : g.StandsIn n text) (rest : List Char) :
    g.StandsIn n (text ++ rest) := by
  obtain ⟨before, after, rfl, hline⟩ := h
  exact ⟨before, after ++ rest, List.append_assoc _ _ _, hline⟩

theorem Glyph.StandsIn.behind (h : g.StandsIn (n + text.count '\n') rest) :
    g.StandsIn n (text ++ rest) := by
  obtain ⟨before, after, rfl, hline⟩ := h
  refine ⟨text ++ before, after, (List.append_assoc _ _ _).symm, ?_⟩
  rw [hline, List.count_append, Nat.add_assoc]

theorem count_singleton_of_ne {c : Char} (hc : c ≠ '\n') : [c].count '\n' = 0 :=
  List.count_eq_zero.2 fun hmem => hc (List.mem_singleton.1 hmem).symm

theorem count_singleton (n : Nat) (c : Char) :
    n + [c].count '\n' = if c = '\n' then n + 1 else n := by
  split <;> rename_i hc
  · rw [hc]
    rfl
  · rw [count_singleton_of_ne hc]
    rfl

theorem standsIn_of_mem_glyphs (h : g ∈ glyphs n text) : g.StandsIn n text := by
  induction text generalizing n with
  | nil => cases h
  | cons c text ih =>
    rw [glyphs, ← count_singleton] at h
    rcases List.mem_append.1 h with h | h
    · split at h
      · cases h
      · cases List.mem_singleton.1 h
        exact ⟨[], text, rfl, rfl⟩
    · exact (ih h).behind

theorem mem_ahead {all : List (List Glyph)} {front : List Glyph} (hs : s ∈ ahead front all)
    (hg : g ∈ s) : g ∈ front ∨ ∃ t ∈ all, g ∈ t := by
  cases all with
  | nil => cases hs
  | cons t all =>
    rcases List.mem_cons.1 hs with rfl | hs
    · exact (List.mem_append.1 hg).imp_right fun hg => ⟨t, List.mem_cons_self, hg⟩
    · exact .inr ⟨s, List.mem_cons_of_mem _ hs, hg⟩

theorem standsIn_of_mem_sections {ps : List Span} (h : Divided d text ps) :
    ∀ {n s}, s ∈ sections d n ps → ∀ {g}, g ∈ s → g.StandsIn n text := by
  induction h with
  | nil =>
    intro n s hs g hg
    cases List.mem_singleton.1 hs
    cases hg
  | @cons p rest ps hp _ ih =>
    intro n s hs g hg
    rw [sections] at hs
    split at hs
    · rcases List.mem_cons.1 hs with rfl | hs
      · cases hg
      · exact (ih hs hg).behind
    · rcases mem_ahead hs hg with hg | ⟨t, ht, hg⟩
      · apply Glyph.StandsIn.append
        cases p with
        | code c => exact standsIn_of_mem_glyphs hg
        | quotation text => exact standsIn_of_mem_glyphs hg
        | comment text => cases hg
      · exact (ih ht hg).behind

theorem exists_mem_of_mem_joined {all : List (List Glyph)} (hs : s ∈ joined all) (hg : g ∈ s) :
    ∃ t ∈ all, g ∈ t := by
  induction all generalizing s g with
  | nil =>
    cases List.mem_singleton.1 hs
    cases hg
  | cons t all ih =>
    rw [joined] at hs
    have hlater : (∃ u ∈ all, g ∈ u) → ∃ u ∈ t :: all, g ∈ u := by
      rintro ⟨u, hu, hg⟩
      exact ⟨u, List.mem_cons_of_mem _ hu, hg⟩
    split at hs
    · rcases mem_ahead hs hg with hg | ⟨u, hu, hg⟩
      · exact ⟨t, List.mem_cons_self, List.dropLast_subset t hg⟩
      · exact hlater (ih hu hg)
    · rcases List.mem_cons.1 hs with rfl | hs
      · exact ⟨s, List.mem_cons_self, hg⟩
      · exact hlater (ih hs hg)

/-- The characters of statements stand where their lines say. -/
theorem standsIn_of_mem_portions {ps : List Span} (h : Divided d text ps) (hs : s ∈ portions d ps)
    (hg : g ∈ s) : g.StandsIn 1 text := by
  have hs := List.mem_of_mem_filter hs
  cases d with
  | elegant =>
    obtain ⟨t, ht, hg⟩ := exists_mem_of_mem_joined hs hg
    exact standsIn_of_mem_sections h ht hg
  | madx => exact standsIn_of_mem_sections h hs hg

end Lines

/-! ### Clauses -/

/-- The characters of a text that are no blanks. -/
def inked (text : List Char) : List Char :=
  text.filter (!isBlank ·)

/-- A clause of the characters `s`, apart from blanks, that starts on the line of the first. -/
structure Clause.Shows (c : Clause) (s : List Glyph) : Prop where
  line : s.head?.map Glyph.line = some c.line
  text : inked c.text = s.map Glyph.char

end Beamline.Deck

import Beamline.Proofs.Deck.Clause
import Beamline.Proofs.Deck.Spans
import Mathlib.Data.List.DropRight

/-!
# What clauses hold

* `Reading.Shows`, `Gathered.Shows` : what has been read of a clause holds some characters of the
  deck, kept by every span of a MAD-X deck and by every line of an elegant deck;
* `shows_cutMadxFrom`, `Gathered.shows_lines` : so the clauses that follow hold the characters of
  the statements that follow;
* `shows_cut` : a deck is cut into its statements.
-/

namespace Beamline.Deck

open Text

/-! ## Characters -/

section Characters

variable {n : Nat} {cs ds : List Char}

theorem inked_append : inked (cs ++ ds) = inked cs ++ inked ds :=
  List.filter_append _ _

theorem glyphs_append (n : Nat) (cs ds : List Char) :
    glyphs n (cs ++ ds) = glyphs n cs ++ glyphs (n + cs.count '\n') ds := by
  induction cs generalizing n with
  | nil => rfl
  | cons c cs ih =>
    rw [List.cons_append, glyphs, glyphs, ih, ← count_singleton, Nat.add_assoc, ← List.count_append,
      List.append_assoc]
    rfl

theorem map_char_glyphs (n : Nat) (cs : List Char) : (glyphs n cs).map Glyph.char = inked cs := by
  induction cs generalizing n with
  | nil => rfl
  | cons c cs ih =>
    rw [glyphs, List.map_append, ih, inked, inked, List.filter_cons]
    cases isBlank c <;> rfl

/-- On one line all characters have its number. -/
theorem glyphs_eq_map (h : '\n' ∉ cs) : glyphs n cs = (inked cs).map (Glyph.mk n) := by
  induction cs with
  | nil => rfl
  | cons c cs ih =>
    rw [List.mem_cons, not_or] at h
    rw [glyphs, if_neg (Ne.symm h.1), ih h.2, inked, inked, List.filter_cons]
    cases isBlank c <;> rfl

theorem map_char_map_mk (n : Nat) (cs : List Char) :
    (cs.map (Glyph.mk n)).map Glyph.char = cs := by
  rw [List.map_map]
  exact List.map_id _

theorem glyphs_blank {c : Char} (hc : isBlank c) : glyphs n [c] = [] := by
  simp [glyphs, hc]

theorem glyphs_ink {c : Char} (hc : isBlank c = false) : glyphs n [c] = [⟨n, c⟩] := by
  simp [glyphs, hc]

theorem inked_dropWhile : inked (cs.dropWhile isBlank) = inked cs := by
  induction cs with
  | nil => rfl
  | cons c cs ih =>
    rw [List.dropWhile_cons]
    split
    · rename_i hc
      rw [ih, inked, inked, List.filter_cons_of_neg (by simp [hc])]
    · rfl

theorem inked_trim (cs : List Char) : inked (trim cs) = inked cs := by
  have hend (ds : List Char) : inked (trimEnd ds) = inked ds := by
    unfold trimEnd inked
    rw [List.filter_reverse]
    show (inked (ds.reverse.dropWhile isBlank)).reverse = _
    rw [inked_dropWhile, inked, List.filter_reverse, List.reverse_reverse]
  rw [trim, hend, trimStart, inked_dropWhile]

theorem isBlank_last_trim {c : Char} (h : c ∈ (trim cs).getLast?) : isBlank c = false := by
  have hne : trim cs ≠ [] := by
    rintro hnil
    rw [hnil] at h
    cases h
  rw [Option.mem_def, List.getLast?_eq_some_getLast hne, Option.some_inj] at h
  rw [← h]
  exact Bool.eq_false_of_not_eq_true (List.rdropWhile_last_not isBlank (trimStart cs) hne)

theorem isBlank_head_trim {c : Char} (h : c ∈ (trim cs).head?) : isBlank c = false := by
  have hstart := List.head?_dropWhile_not isBlank cs
  obtain ⟨ds, hds⟩ := List.head?_eq_some_iff.1 h
  obtain ⟨rest, hrest⟩ := List.rdropWhile_prefix isBlank (trimStart cs)
  have hcs : cs.dropWhile isBlank = c :: (ds ++ rest) := by
    rw [← List.cons_append, ← hds]
    exact hrest.symm
  rw [hcs] at hstart
  simpa using hstart

/-! ### Sections -/

variable {s t : List Glyph} {all : List (List Glyph)}

theorem ahead_cons : ahead s (t :: all) = (s ++ t) :: all :=
  rfl

theorem ahead_nil : ahead [] all = all := by
  cases all <;> rfl

theorem ahead_ahead : ahead s (ahead t all) = ahead (s ++ t) all := by
  cases all with
  | nil => rfl
  | cons u all => rw [ahead_cons, ahead_cons, ahead_cons, List.append_assoc]

theorem filter_ahead_cons : (ahead s ([] :: all)).filter (!·.isEmpty) =
    [s].filter (!·.isEmpty) ++ all.filter (!·.isEmpty) := by
  rw [ahead_cons, List.append_nil, ← List.filter_append, List.singleton_append]

end Characters

/-! ## MAD-X -/

/-- What has been read of a clause holds the characters `s`, apart from blanks. -/
structure Reading.Shows (r : Reading) (s : List Glyph) : Prop where
  text : inked r.taken.reverse = s.map Glyph.char
  start : ∀ g ∈ s.head?, g.line = r.start
  ne_nil : r.taken ≠ [] → s ≠ []

namespace Reading.Shows

variable {r : Reading} {s : List Glyph} {c : Char}

theorem taken_eq_nil (h : r.Shows []) : r.taken = [] :=
  by_contra fun hne => h.ne_nil hne rfl

theorem taken_ne_nil (h : r.Shows s) (hs : s ≠ []) : r.taken ≠ [] := by
  intro hnil
  have htext := h.text
  rw [hnil] at htext
  exact hs (List.map_eq_nil_iff.1 htext.symm)

theorem fresh (r : Reading) : ({ r with taken := [] } : Reading).Shows [] :=
  ⟨rfl, nofun, fun hne => absurd rfl hne⟩

/-- The line that is being read does not matter. -/
theorem move (h : r.Shows s) (line : Nat) : ({ r with line := line } : Reading).Shows s :=
  ⟨h.text, h.start, h.ne_nil⟩

theorem newline (h : r.Shows s) : r.newline.Shows s := by
  unfold Reading.newline
  split
  · rename_i hempty
    have hnil := List.isEmpty_iff.1 hempty
    exact ⟨by rw [← h.text, hnil], h.start, fun hne => absurd rfl hne⟩
  · rename_i hne
    refine ⟨?_, h.start, fun _ => h.ne_nil fun hnil => hne (by rw [hnil]; rfl)⟩
    rw [List.reverse_cons, inked_append, ← h.text]
    exact List.append_nil _

/-- A character that is no blank, or that does not come first, is added. -/
theorem take (h : r.Shows s) (hc : isBlank c = false ∨ r.taken ≠ []) :
    (r.take c).Shows (s ++ glyphs r.line [c]) := by
  have htext : inked (r.take c).taken.reverse = (s ++ glyphs r.line [c]).map Glyph.char := by
    rw [List.map_append, map_char_glyphs, ← h.text, ← inked_append, ← List.reverse_cons]
    rfl
  cases s with
  | nil =>
    have hnil := h.taken_eq_nil
    have hink := hc.resolve_right (absurd hnil)
    rw [glyphs_ink hink] at htext ⊢
    refine ⟨htext, ?_, fun _ => List.cons_ne_nil _ _⟩
    rintro _ ⟨⟩
    simp [Reading.take, hnil]
  | cons g s =>
    refine ⟨htext, ?_, fun _ => List.cons_ne_nil _ _⟩
    rintro _ ⟨⟩
    have hne := List.isEmpty_eq_false_iff.2 (h.taken_ne_nil (List.cons_ne_nil g s))
    rw [h.start g rfl, Reading.take, hne]
    rfl

/-- What has been read is a clause, if it is anything. -/
theorem clause? (h : r.Shows s) :
    List.Forall₂ Clause.Shows r.clause?.toList ([s].filter (!·.isEmpty)) := by
  unfold Reading.clause? Deck.clause?
  cases s with
  | nil =>
    rw [h.taken_eq_nil]
    exact .nil
  | cons g s =>
    have hink := inked_trim r.taken.reverse
    rw [h.text] at hink
    split
    · rename_i hnil
      rw [hnil] at hink
      cases hink
    · exact .cons ⟨congrArg some (h.start g rfl), hink⟩ .nil

end Reading.Shows

/-! ### Spans -/

section Madx

variable {r : Reading} {s : List Glyph} {c : Char} {text rest : List Char}

theorem count_eq (r : Reading) (c : Char) :
    r.count c = { r with line := r.line + [c].count '\n' } := by
  rw [count_singleton, Reading.count]
  split <;> rfl

/-- A comment that ends with its line adds nothing. -/
theorem cutMadxFrom_lineComment (htext : '\n' ∉ text) (hrest : LineEnds rest) (r : Reading) :
    cutMadxFrom .lineComment r (text ++ rest) = cutMadxFrom .code r rest := by
  induction text with
  | nil =>
    cases rest with
    | nil => rw [List.append_nil, cutMadxFrom, cutMadxFrom]
    | cons c rest =>
      cases hrest c rfl
      rw [List.nil_append, cutMadxFrom, if_pos rfl, cutMadxFrom_cons (by decide),
        if_neg (by decide), if_neg (by decide), if_pos rfl]
  | cons c text ih =>
    rw [List.mem_cons, not_or] at htext
    rw [List.cons_append, cutMadxFrom, if_neg (Ne.symm htext.1), ih htext.2]

/-- Inside a comment that has an end of its own only the lines are counted. -/
theorem exists_cutMadxFrom_blockComment (htext : Unclosed text) (rest : List Char) :
    ∀ (star : Bool) (r : Reading), (star → ¬ ['/'] <+: text) → ∃ star',
      cutMadxFrom (.blockComment star) r (text ++ rest) = cutMadxFrom (.blockComment star')
        { r with line := r.line + text.count '\n' } rest := by
  induction text with
  | nil => exact fun star r _ => ⟨star, rfl⟩
  | cons c text ih =>
    intro star r hstar
    rw [unclosed_cons] at htext
    have hopen : (star && c = '/') = false := by
      rw [Bool.and_eq_false_iff, ← Bool.not_eq_true]
      by_contra hclose
      simp only [not_or, not_not, decide_eq_false_iff_not] at hclose
      exact hstar hclose.1 (hclose.2 ▸ List.prefix_append ['/'] text)
    obtain ⟨star', hih⟩ := ih htext.2 (c = '*') (r.count c) fun hc hslash => htext.1
      (List.cons_prefix_cons.2 ⟨(of_decide_eq_true hc).symm, hslash⟩)
    refine ⟨star', ?_⟩
    rw [List.cons_append, cutMadxFrom, hopen, if_neg Bool.false_ne_true, hih, count_eq]
    dsimp only
    rw [Nat.add_assoc, ← List.count_append]
    rfl

theorem cutMadxFrom_close (star : Bool) (r : Reading) (rest : List Char) :
    cutMadxFrom (.blockComment star) r ('*' :: '/' :: rest) = cutMadxFrom .code r rest := by
  rw [cutMadxFrom, if_neg (by simp), cutMadxFrom, if_pos (by simp)]
  rfl

/-- A quotation that has been opened is added as a whole. -/
theorem exists_cutMadxFrom_quoted {q : Char} (htext : q ∉ text) (rest : List Char) :
    ∀ (r : Reading) (s : List Glyph), r.Shows s → r.taken ≠ [] → ∃ r' : Reading,
      r'.Shows (s ++ glyphs r.line text) ∧ r'.taken ≠ [] ∧
      r'.line = r.line + text.count '\n' ∧
      cutMadxFrom (.quoted q) r (text ++ rest) = cutMadxFrom (.quoted q) r' rest := by
  induction text with
  | nil =>
    intro r s hr hne
    exact ⟨r, by rwa [glyphs, List.append_nil], hne, rfl, rfl⟩
  | cons c text ih =>
    intro r s hr hne
    rw [List.mem_cons, not_or] at htext
    have hnext : (r.take c).count c = { r.take c with line := r.line + [c].count '\n' } :=
      count_eq (r.take c) c
    obtain ⟨r', hr', hne', hline', heq⟩ := ih htext.2 ((r.take c).count c) _
      (hnext ▸ (hr.take (.inr hne)).move _) (by rw [hnext]; exact List.cons_ne_nil _ _)
    rw [hnext] at hr' hline'
    refine ⟨r', ?_, hne', ?_, ?_⟩
    · rw [← List.singleton_append, glyphs_append, ← List.append_assoc]
      exact hr'
    · rw [hline', Nat.add_assoc, ← List.count_append]
      rfl
    · rw [List.cons_append, cutMadxFrom, if_neg (Ne.symm htext.1), heq]

/-- A character that opens no comment is code. -/
theorem cutMadxFrom_of_code (hcomment : ∀ mark ∈ lineMarks .madx ++ blockMarks .madx,
    ¬ mark <+: c :: rest) (hquote : isQuote c = false) (r : Reading) :
    cutMadxFrom .code r (c :: rest) =
      if c = ';' then r.clause?.toList ++ cutMadxFrom .code { r with taken := [] } rest
      else if c = '\n' then cutMadxFrom .code r.newline rest
      else if isBlank c && r.taken.isEmpty then cutMadxFrom .code r rest
      else cutMadxFrom .code (r.take c) rest := by
  have hbang : c ≠ '!' := by
    rintro rfl
    exact hcomment ['!'] (by decide) (List.prefix_append ['!'] rest)
  by_cases hslash : c = '/'
  · subst hslash
    rw [cutMadxFrom.eq_def]
    dsimp only
    split
    · rename_i rest _
      exact absurd (List.prefix_append ['/', '/'] rest) (hcomment ['/', '/'] (by decide))
    · rename_i rest _
      exact absurd (List.prefix_append ['/', '*'] rest) (hcomment ['/', '*'] (by decide))
    · rfl
  · rw [cutMadxFrom_cons hslash, if_neg hbang, hquote, if_neg Bool.false_ne_true]

theorem cutMadxFrom_lineMark {mark : List Char} (hmark : mark ∈ lineMarks .madx) (r : Reading)
    (cs : List Char) : cutMadxFrom .code r (mark ++ cs) = cutMadxFrom .lineComment r cs := by
  rcases List.mem_cons.1 hmark with rfl | hmark
  · exact (cutMadxFrom_cons (by decide) r cs).trans (if_pos rfl)
  · cases List.mem_singleton.1 hmark
    rw [List.cons_append, List.cons_append, List.nil_append, cutMadxFrom]

theorem cutMadxFrom_blockMark {mark : List Char} (hmark : mark ∈ blockMarks .madx) (r : Reading)
    (cs : List Char) : cutMadxFrom .code r (mark ++ cs) =
      cutMadxFrom (.blockComment false) r cs := by
  cases List.mem_singleton.1 hmark
  rw [List.cons_append, List.cons_append, List.nil_append, cutMadxFrom]

theorem notMem_of_mem_lineMarks {d : Dialect} : ∀ mark ∈ lineMarks d, '\n' ∉ mark := by
  cases d <;> decide

theorem notMem_of_mem_blockMarks {d : Dialect} : ∀ mark ∈ blockMarks d, '\n' ∉ mark := by
  cases d <;> decide

theorem isBlank_of_isQuote {c : Char} (h : isQuote c) : isBlank c = false := by
  simp only [isQuote, Bool.or_eq_true, beq_iff_eq] at h
  rcases h with rfl | rfl <;> decide

theorem ne_newline_of_isQuote {q : Char} (hq : isQuote q) : q ≠ '\n' := by
  rintro rfl
  cases hq

theorem cutMadxFrom_openQuote {q : Char} (hq : isQuote q) (r : Reading) (cs : List Char) :
    cutMadxFrom .code r (q :: cs) = cutMadxFrom (.quoted q) (r.take q) cs := by
  have hblank := isBlank_of_isQuote hq
  have hne : q = '"' ∨ q = '\'' := by simpa [isQuote] using hq
  rw [cutMadxFrom_cons (by rcases hne with rfl | rfl <;> decide)]
  rw [if_neg (by rcases hne with rfl | rfl <;> decide),
    if_neg (by rcases hne with rfl | rfl <;> decide),
    if_neg (by rcases hne with rfl | rfl <;> decide), hblank, hq]
  rfl

/-- A quotation is added up to its end. -/
theorem exists_cutMadxFrom_quotation {q : Char} (hq : isQuote q) (htext : q ∉ text)
    (rest : List Char) (hr : r.Shows s) : ∃ r' : Reading,
      r'.Shows (s ++ glyphs r.line (q :: text)) ∧ r'.taken ≠ [] ∧
      r'.line = r.line + (q :: text).count '\n' ∧
      cutMadxFrom .code r (q :: text ++ rest) = cutMadxFrom (.quoted q) r' rest := by
  have hcount := count_singleton_of_ne (ne_newline_of_isQuote hq)
  obtain ⟨r', hr', hne', hline', hcut'⟩ := exists_cutMadxFrom_quoted htext rest (r.take q) _
    (hr.take (.inl (isBlank_of_isQuote hq))) (List.cons_ne_nil _ _)
  refine ⟨r', ?_, hne', ?_, ?_⟩
  · rw [← List.singleton_append, glyphs_append, hcount, ← List.append_assoc]
    exact hr'
  · rw [hline', ← List.singleton_append, List.count_append, hcount, Nat.zero_add]
    rfl
  · rw [List.cons_append, cutMadxFrom_openQuote hq, hcut']

/-- The text in front of `rest` is read and adds the characters `kept` to `s`. -/
def Adds (r : Reading) (s : List Glyph) (text kept rest : List Char) : Prop :=
  ∃ r' : Reading, r'.Shows (s ++ glyphs r.line kept) ∧ r'.line = r.line + text.count '\n' ∧
    cutMadxFrom .code r (text ++ rest) = cutMadxFrom .code r' rest

theorem adds_code (hquote : isQuote c = false) (hcomment : ∀ mark ∈ lineMarks .madx ++
    blockMarks .madx, ¬ mark <+: c :: rest) (hend : c ≠ ';') (hr : r.Shows s) :
    Adds r s [c] [c] rest := by
  have hcut := cutMadxFrom_of_code hcomment hquote r
  rw [if_neg hend] at hcut
  by_cases hline : c = '\n'
  · subst hline
    refine ⟨r.newline, ?_, rfl, hcut⟩
    rw [glyphs_blank (by decide), List.append_nil]
    exact hr.newline
  · rw [if_neg hline] at hcut
    by_cases hblank : isBlank c && r.taken.isEmpty
    · rw [if_pos hblank] at hcut
      refine ⟨r, ?_, by rw [count_singleton_of_ne hline]; rfl, hcut⟩
      rw [glyphs_blank (Bool.and_eq_true_iff.1 hblank).1, List.append_nil]
      exact hr
    · rw [if_neg hblank] at hcut
      refine ⟨r.take c, hr.take ?_, by rw [count_singleton_of_ne hline]; rfl, hcut⟩
      simpa [imp_iff_not_or] using hblank

theorem adds_quotation {q : Char} (hq : isQuote q) (htext : q ∉ text) (hr : r.Shows s) :
    Adds r s (q :: (text ++ [q])) (q :: (text ++ [q])) rest := by
  obtain ⟨r', hr', hne', hline', hcut'⟩ := exists_cutMadxFrom_quotation hq htext (q :: rest) hr
  have hq := ne_newline_of_isQuote hq
  rw [← List.cons_append]
  refine ⟨r'.take q, ?_, ?_, ?_⟩
  · rw [glyphs_append, ← hline', ← List.append_assoc]
    exact hr'.take (.inr hne')
  · rw [List.count_append, count_singleton_of_ne hq]
    exact hline'
  · rw [List.append_assoc, List.singleton_append, hcut', cutMadxFrom, if_pos rfl, Reading.count,
      if_neg hq]

/-- What counts its lines only adds nothing. -/
theorem adds_nothing (hr : r.Shows s) (hcut : cutMadxFrom .code r (text ++ rest) =
    cutMadxFrom .code { r with line := r.line + text.count '\n' } rest) :
    Adds r s text [] rest :=
  ⟨_, (List.append_nil s).symm ▸ hr.move _, rfl, hcut⟩

theorem adds_lineComment {mark : List Char} (hmark : mark ∈ lineMarks .madx) (htext : '\n' ∉ text)
    (hend : LineEnds rest) (hr : r.Shows s) : Adds r s (mark ++ text) [] rest := by
  have hcount : (mark ++ text).count '\n' = 0 := by
    rw [List.count_eq_zero, List.mem_append]
    exact not_or.2 ⟨notMem_of_mem_lineMarks _ hmark, htext⟩
  refine adds_nothing hr ?_
  rw [hcount, List.append_assoc, cutMadxFrom_lineMark hmark, cutMadxFrom_lineComment htext hend]
  rfl

/-- A comment that has an end of its own is read up to that end. -/
theorem exists_cutMadxFrom_comment {mark : List Char} (hmark : mark ∈ blockMarks .madx)
    (htext : Unclosed text) (r : Reading) (rest : List Char) : ∃ star,
      cutMadxFrom .code r (mark ++ text ++ rest) = cutMadxFrom (.blockComment star)
        { r with line := r.line + (mark ++ text).count '\n' } rest := by
  obtain ⟨star, hcut⟩ := exists_cutMadxFrom_blockComment htext rest false r
    fun hstar => absurd hstar Bool.false_ne_true
  refine ⟨star, ?_⟩
  rw [List.append_assoc, cutMadxFrom_blockMark hmark, hcut, List.count_append,
    List.count_eq_zero.2 (notMem_of_mem_blockMarks _ hmark), Nat.zero_add]

theorem adds_blockComment {mark : List Char} (hmark : mark ∈ blockMarks .madx)
    (htext : Unclosed text) (hr : r.Shows s) :
    Adds r s (mark ++ text ++ ['*', '/']) [] rest := by
  obtain ⟨star, hcut⟩ := exists_cutMadxFrom_comment hmark htext r ('*' :: '/' :: rest)
  rw [cutMadxFrom_close] at hcut
  refine adds_nothing hr ?_
  rw [List.append_assoc, List.count_append]
  exact hcut

theorem adds_openComment {mark : List Char} (hmark : mark ∈ blockMarks .madx)
    (htext : Unclosed text) (hr : r.Shows s) : Adds r s (mark ++ text) [] [] := by
  obtain ⟨star, hcut⟩ := exists_cutMadxFrom_comment hmark htext r []
  refine adds_nothing hr ?_
  rw [hcut, cutMadxFrom, cutMadxFrom]

/-- What a span adds to the clause that is being read, if it does not end the clause. -/
theorem Span.Fits.adds {p : Span} (hp : p.Fits .madx rest) (hend : p ≠ .code (ending .madx))
    (hr : r.Shows s) : Adds r s p.text p.kept rest := by
  cases hp with
  | code hquote hcomment =>
    exact adds_code hquote hcomment (fun hc => hend (by rw [hc]; rfl)) hr
  | quotation hq htext => exact adds_quotation hq htext.mark hr
  | openQuotation hq htext hclose =>
    obtain ⟨r', hr', -, hline', hcut'⟩ := exists_cutMadxFrom_quotation hq htext.mark rest hr
    cases hclose.resolve_right fun helegant => absurd helegant.1 (by decide)
    rw [cutMadxFrom] at hcut'
    refine ⟨r', hr', hline', ?_⟩
    rw [cutMadxFrom]
    exact hcut'
  | lineComment hmark htext hclose => exact adds_lineComment hmark htext hclose hr
  | blockComment hmark htext => exact adds_blockComment hmark htext hr
  | openComment hmark htext => exact adds_openComment hmark htext hr

/-! ### Statements -/

/-- The clauses that follow hold what has been read and the characters of what follows. -/
theorem shows_cutMadxFrom {ps : List Span} (h : Divided .madx text ps) :
    ∀ (r : Reading) (s : List Glyph), r.Shows s →
      List.Forall₂ Clause.Shows (cutMadxFrom .code r text)
        ((ahead s (sections .madx r.line ps)).filter (!·.isEmpty)) := by
  induction h with
  | nil =>
    intro r s hr
    rw [cutMadxFrom, sections, ahead_cons, List.append_nil]
    exact hr.clause?
  | @cons p rest ps hp _ ih =>
    intro r s hr
    by_cases hend : p = .code (ending .madx)
    · subst hend
      have hlater := ih _ _ (.fresh r)
      rw [ahead_nil] at hlater
      rw [sections, if_pos rfl, filter_ahead_cons]
      exact List.rel_append hr.clause? hlater
    · obtain ⟨r', hr', hline, hcut⟩ := hp.adds hend hr
      rw [hcut, sections, if_neg hend, ahead_ahead, ← hline]
      exact ih r' _ hr'

end Madx

/-! ## elegant -/

section Elegant

variable {s : List Glyph} {l text rest : List Char} {ls : List (List Char)} {n : Nat}

/-- The characters of the code of a line, which has the number `n`. -/
def row (n : Nat) (l : List Char) : List Glyph :=
  (inked (splitComment none l).1).map (Glyph.mk n)

/-- The characters of the code of some lines, the first of which has the number `n`. -/
def rows (n : Nat) : List (List Char) → List (List Glyph)
  | [] => []
  | l :: ls => row n l :: rows (n + 1) ls

/-- The code of a line without the mark `&` at its end, and whether the mark was there. -/
def codeOf (l : List Char) : List Char × Bool :=
  continuation (trim (splitComment none l).1)

/-! ### Lines -/

theorem splitComment_quoted {q : Char} (htext : q ∉ text) (cs : List Char) :
    (splitComment (some q) (text ++ cs)).1 = text ++ (splitComment (some q) cs).1 := by
  induction text with
  | nil => rfl
  | cons c text ih =>
    rw [List.mem_cons, not_or] at htext
    rw [List.cons_append, splitComment]
    dsimp only
    rw [if_neg (Ne.symm htext.1), ih htext.2]
    rfl

theorem splitComment_openQuote {q : Char} (hq : isQuote q) (cs : List Char) :
    (splitComment none (q :: cs)).1 = q :: (splitComment (some q) cs).1 := by
  have hne : q ≠ '!' := by
    rintro rfl
    cases hq
  rw [splitComment]
  dsimp only
  rw [if_neg hne, hq]
  rfl

/-- Where a line ends, the next one starts. -/
theorem eq_nil_of_lineEnds (hrest : LineEnds rest) (hl : rest.splitOn '\n' = l :: ls) :
    l = [] := by
  cases rest with
  | nil =>
    rw [List.splitOn_nil] at hl
    exact (List.cons.inj hl).1.symm
  | cons c rest =>
    cases hrest c rfl
    rw [List.splitOn_cons_eq_if_modifyHead, if_pos (by decide)] at hl
    exact (List.cons.inj hl).1.symm

/-- The code of a line goes on with what a span at its start keeps. -/
theorem Span.Fits.splitComment {p : Span} (hp : p.Fits .elegant rest)
    (hl : rest.splitOn '\n' = l :: ls) :
    (splitComment none (p.text ++ l)).1 = p.kept ++ (splitComment none l).1 := by
  cases hp with
  | @code c _ hquote hcomment =>
    have hbang : c ≠ '!' := by
      rintro rfl
      exact hcomment ['!'] (by decide) (List.prefix_append ['!'] rest)
    rw [Span.text, Span.kept, List.singleton_append, Deck.splitComment]
    dsimp only
    rw [if_neg hbang, hquote]
    rfl
  | @quotation q text _ hq htext =>
    rw [Span.text, Span.kept, List.cons_append, splitComment_openQuote hq, List.append_assoc,
      splitComment_quoted htext.mark, List.singleton_append, Deck.splitComment]
    dsimp only
    rw [if_pos rfl, List.cons_append, List.append_assoc]
    rfl
  | @openQuotation q text _ hq htext hend =>
    have hrest : LineEnds rest := by
      rcases hend with rfl | ⟨-, hrest⟩
      · exact fun c hc => absurd hc (Option.not_mem_none c)
      · exact hrest
    rw [eq_nil_of_lineEnds hrest hl, Span.text, Span.kept, List.cons_append,
      splitComment_openQuote hq, splitComment_quoted htext.mark]
    rfl
  | @lineComment mark text _ hmark htext hend =>
    cases List.mem_singleton.1 hmark
    rw [eq_nil_of_lineEnds hend hl]
    rfl
  | blockComment hmark => cases hmark
  | openComment hmark => cases hmark

theorem Span.Fits.newline_notMem {p : Span} (hp : p.Fits .elegant rest)
    (hend : p ≠ .code (ending .elegant)) : '\n' ∉ p.text := by
  cases hp with
  | code =>
    intro hmem
    exact hend (by rw [← List.mem_singleton.1 hmem]; rfl)
  | quotation hq htext =>
    simp [Span.text, (ne_newline_of_isQuote hq).symm, htext.line rfl]
  | openQuotation hq htext =>
    simp [Span.text, (ne_newline_of_isQuote hq).symm, htext.line rfl]
  | lineComment hmark htext =>
    rw [Span.text, List.mem_append]
    exact not_or.2 ⟨notMem_of_mem_lineMarks _ hmark, htext⟩
  | blockComment hmark => cases hmark
  | openComment hmark => cases hmark

theorem Span.kept_subset (p : Span) : p.kept ⊆ p.text := by
  cases p with
  | code c => exact List.Subset.refl _
  | quotation text => exact List.Subset.refl _
  | comment text => exact List.nil_subset _

theorem splitOn_append (htext : '\n' ∉ text) (hl : rest.splitOn '\n' = l :: ls) :
    (text ++ rest).splitOn '\n' = (text ++ l) :: ls := by
  induction text with
  | nil => exact hl
  | cons c text ih =>
    rw [List.mem_cons, not_or] at htext
    rw [List.cons_append, List.splitOn_cons_eq_if_modifyHead,
      if_neg (by simpa using Ne.symm htext.1), ih htext.2]
    rfl

/-- What stands between the ends of the lines is the code of the lines. -/
theorem sections_eq_rows {ps : List Span} (h : Divided .elegant text ps) :
    ∀ n, sections .elegant n ps = rows n (text.splitOn '\n') := by
  induction h with
  | nil => exact fun _ => rfl
  | @cons p rest ps hp _ ih =>
    intro n
    by_cases hend : p = .code (ending .elegant)
    · subst hend
      rw [sections, if_pos rfl, ih]
      show _ = rows n (('\n' :: rest).splitOn '\n')
      rw [List.splitOn_cons_eq_if_modifyHead, if_pos (by decide)]
      rfl
    · obtain ⟨l, ls, hl⟩ := List.exists_cons_of_ne_nil (List.splitOn_ne_nil '\n' rest)
      have hnewline := hp.newline_notMem hend
      rw [sections, if_neg hend, ih, splitOn_append hnewline hl, List.count_eq_zero.2 hnewline, hl,
        rows, ahead_cons, rows, row, row, hp.splitComment hl, inked_append, List.map_append,
        glyphs_eq_map fun hmem => hnewline (p.kept_subset hmem)]
      rfl

theorem splitOn_eq_lines (text : List Char) :
    text.splitOn '\n' = lines text ∨ text.splitOn '\n' = lines text ++ [[]] := by
  induction text with
  | nil => exact .inr rfl
  | cons c text ih =>
    rw [List.splitOn_cons_eq_if_modifyHead, lines]
    by_cases hc : c = '\n'
    · rw [if_pos (beq_iff_eq.2 hc), if_pos hc, List.cons_append, List.cons_inj_right,
        List.cons_inj_right]
      exact ih
    · rw [if_neg (by simpa using hc), if_neg hc]
      have hne := List.splitOn_ne_nil '\n' text
      cases hlines : lines text with
      | nil =>
        rw [hlines] at ih
        rw [ih.resolve_left hne]
        exact .inl rfl
      | cons l ls =>
        rw [hlines] at ih
        rcases ih with ih | ih
        · exact .inl (by rw [ih]; rfl)
        · exact .inr (by rw [ih]; rfl)

/-! ### Statements -/

theorem getLast?_inked {code : List Char} (hlast : ∀ c ∈ code.getLast?, isBlank c = false) :
    (inked code).getLast? = code.getLast? := by
  rcases code.eq_nil_or_concat with rfl | ⟨front, c, rfl⟩
  · rfl
  · rw [List.concat_eq_append] at hlast ⊢
    have hink : inked [c] = [c] := by
      rw [inked, List.filter_cons_of_pos (by simp [hlast c]), List.filter_nil]
    rw [inked_append, hink, List.getLast?_concat, List.getLast?_concat]

/-- A line goes on in the next one if the last character of its code is `&`. -/
theorem codeOf_iff (n : Nat) (l : List Char) :
    (codeOf l).2 ↔ (row n l).getLast?.map Glyph.char = some '&' := by
  have hlast := getLast?_inked fun c (hc : c ∈ (trim (splitComment none l).1).getLast?) =>
    isBlank_last_trim hc
  rw [inked_trim] at hlast
  rw [row, ← List.getLast?_map, map_char_map_mk, hlast, codeOf, continuation]
  split <;> simp_all

/-- If a line goes on, this character is left out. -/
theorem map_inked_codeOf (n : Nat) (l : List Char) : (inked (codeOf l).1).map (Glyph.mk n) =
    if (codeOf l).2 then (row n l).dropLast else row n l := by
  rw [row, ← inked_trim (splitComment none l).1, codeOf, continuation]
  split
  · rename_i hamp
    obtain ⟨front, hfront⟩ := List.getLast?_eq_some_iff.1 hamp
    have hink : inked ['&'] = ['&'] := rfl
    rw [if_pos rfl, hfront, List.dropLast_concat, inked_append, hink, List.map_append]
    exact (List.dropLast_concat).symm
  · rfl

/-- The code of a line does not consist of blanks. -/
theorem inked_codeOf_ne_nil (l : List Char) (hne : (codeOf l).1 ≠ []) :
    inked (codeOf l).1 ≠ [] := by
  obtain ⟨c, rest, hcons⟩ := List.exists_cons_of_ne_nil hne
  have hprefix : (codeOf l).1 <+: trim (splitComment none l).1 := by
    unfold codeOf continuation
    split
    · exact List.dropLast_prefix _
    · exact List.prefix_rfl
  obtain ⟨behind, hcode⟩ := hprefix
  have hhead : c ∈ (trim (splitComment none l).1).head? := by
    rw [← hcode, hcons]
    rfl
  rw [hcons, inked, List.filter_cons_of_pos (by rw [isBlank_head_trim hhead]; rfl)]
  exact List.cons_ne_nil _ _

/-- The clause that goes on holds the characters `s`, apart from blanks. -/
def Gathered.Shows (g : Gathered) (s : List Glyph) : Prop :=
  match g.pending with
  | none => s = []
  | some c => c.Shows s

namespace Gathered

variable {g : Gathered} {done : List (List Glyph)} {code : List Char}

/-- The code of a line is added to the clause that goes on, or is the start of one. -/
theorem Shows.extend (h : g.Shows s) (n : Nat) (hcode : code ≠ [] → inked code ≠ []) :
    (g.extend n code).Shows (s ++ (inked code).map (Glyph.mk n)) := by
  unfold Gathered.extend
  split
  · rename_i hempty
    rw [List.isEmpty_iff.1 hempty]
    exact (List.append_nil s).symm ▸ h
  · rename_i hempty
    obtain ⟨c, rest, hink⟩ := List.exists_cons_of_ne_nil
      (hcode fun hnil => hempty (List.isEmpty_iff.2 hnil))
    have hstart : inked (g.pending.getD ⟨n, []⟩).text = s.map Glyph.char ∧
        (s ++ (inked code).map (Glyph.mk n)).head?.map Glyph.line =
          some (g.pending.getD ⟨n, []⟩).line := by
      unfold Gathered.Shows at h
      cases hpending : g.pending with
      | none =>
        rw [hpending] at h
        cases h
        exact ⟨rfl, by rw [hink]; rfl⟩
      | some c =>
        rw [hpending] at h
        have hs : s ≠ [] := by
          rintro rfl
          cases h.line
        exact ⟨h.text, by rw [List.head?_append_of_ne_nil _ hs]; exact h.line⟩
    refine ⟨hstart.2, ?_⟩
    show inked ((g.pending.getD ⟨n, []⟩).text ++ code ++ [' ']) = _
    rw [inked_append, inked_append, hstart.1, List.map_append, map_char_map_mk]
    exact List.append_nil _

/-- The clause that goes on ends. -/
theorem Shows.finish (h : g.Shows s) (hdone : List.Forall₂ Clause.Shows g.clauses done) :
    List.Forall₂ Clause.Shows g.finish.clauses (done ++ [s].filter (!·.isEmpty)) := by
  unfold Gathered.finish
  unfold Gathered.Shows at h
  split <;> rename_i hpending
  · rw [hpending] at h
    cases h
    exact (List.append_nil done).symm ▸ hdone
  · rename_i c
    rw [hpending] at h
    have hs : s.isEmpty = false := by
      cases s with
      | nil => cases h.line
      | cons g s => rfl
    rw [List.filter_cons_of_pos (by rw [hs]; rfl), List.filter_nil]
    exact List.rel_append hdone (.cons ⟨h.line, (inked_trim c.text).trans h.text⟩ .nil)

theorem pending_finish (g : Gathered) : g.finish.pending = none := by
  unfold Gathered.finish
  split
  · assumption
  · rfl

theorem finish_eq (h : g.pending = none) : g.finish = g := by
  rw [finish, h]

theorem shows_nil (h : g.pending = none) : g.Shows [] := by
  rw [Gathered.Shows, h]

theorem clauses_extend (g : Gathered) (n : Nat) (code : List Char) :
    (g.extend n code).clauses = g.clauses := by
  unfold Gathered.extend
  split <;> rfl

/-- The code of a line is added to the clause that goes on, which ends unless the line goes on. -/
theorem exists_line (g : Gathered) (n : Nat) (l : List Char) : ∃ title, g.line n l =
    if (codeOf l).2 then ({ g with title := title } : Gathered).extend n (codeOf l).1
    else (({ g with title := title } : Gathered).extend n (codeOf l).1).finish := by
  have htitle : ∃ title, (if g.title.isNone && g.clauses.isEmpty && g.pending.isNone then
      { g with title := (splitComment none l).2.bind titleIn? } else g) =
        { g with title := title } := by
    split
    · exact ⟨_, rfl⟩
    · exact ⟨g.title, rfl⟩
  obtain ⟨title, htitle⟩ := htitle
  refine ⟨title, ?_⟩
  rw [← htitle]
  rfl

/-- What a line adds. -/
theorem Shows.line (hg : g.Shows s) (hdone : List.Forall₂ Clause.Shows g.clauses done) (n : Nat)
    (l : List Char) : if (row n l).getLast?.map Glyph.char = some '&' then
      (g.line n l).Shows (s ++ (row n l).dropLast) ∧
        List.Forall₂ Clause.Shows (g.line n l).clauses done
    else (g.line n l).Shows [] ∧ List.Forall₂ Clause.Shows (g.line n l).clauses
      (done ++ [s ++ row n l].filter (!·.isEmpty)) := by
  obtain ⟨title, hline⟩ := exists_line g n l
  have hext : (({ g with title := title } : Gathered).extend n (codeOf l).1).Shows
      (s ++ (inked (codeOf l).1).map (Glyph.mk n)) :=
    Shows.extend (g := { g with title := title }) hg n (inked_codeOf_ne_nil l)
  have hclauses : List.Forall₂ Clause.Shows
      (({ g with title := title } : Gathered).extend n (codeOf l).1).clauses done := by
    rwa [clauses_extend]
  rw [map_inked_codeOf] at hext
  rw [hline]
  split <;> rename_i hamp
  · have hon := (codeOf_iff n l).2 hamp
    rw [if_pos hon] at hext ⊢
    exact ⟨hext, hclauses⟩
  · have hend := mt (codeOf_iff n l).1 hamp
    rw [if_neg hend] at hext ⊢
    exact ⟨shows_nil (pending_finish _), hext.finish hclauses⟩

/-- The clauses that follow hold what has been gathered and the characters of what follows. -/
theorem shows_lines (ls : List (List Char)) : ∀ (g : Gathered) (n : Nat) (s : List Glyph)
    (done : List (List Glyph)), g.Shows s → List.Forall₂ Clause.Shows g.clauses done →
      List.Forall₂ Clause.Shows (g.lines n ls).finish.clauses
        (done ++ (ahead s (joined (rows n ls))).filter (!·.isEmpty)) := by
  induction ls with
  | nil =>
    intro g n s done hg hdone
    rw [rows, joined, ahead_cons, List.append_nil]
    exact hg.finish hdone
  | cons l ls ih =>
    intro g n s done hg hdone
    have hline := hg.line hdone n l
    rw [rows, joined]
    split at hline <;> rename_i hamp
    · rw [if_pos hamp, ahead_ahead]
      exact ih _ _ _ _ hline.1 hline.2
    · have hlater := ih _ (n + 1) _ _ hline.1 hline.2
      rw [ahead_nil, List.append_assoc, ← List.filter_append, List.singleton_append] at hlater
      rwa [if_neg hamp, ahead_cons]

/-- An empty line behind the last one changes nothing. -/
theorem clauses_line_nil (g : Gathered) (n : Nat) :
    (g.line n []).finish.clauses = g.finish.clauses := by
  obtain ⟨title, hline⟩ := exists_line g n []
  rw [hline]
  show ({ g with title := title } : Gathered).finish.finish.clauses = _
  rw [finish_eq (pending_finish _)]
  unfold Gathered.finish
  dsimp only
  split <;> rfl

end Gathered

/-- The clauses of an elegant deck hold the characters of its lines, joined where they go on. -/
theorem shows_cutElegant {ps : List Span} (h : Divided .elegant text ps) :
    List.Forall₂ Clause.Shows (cutElegant text).clauses (portions .elegant ps) := by
  have hshows := Gathered.shows_lines (text.splitOn '\n') {} 1 [] [] rfl .nil
  rw [ahead_nil, ← sections_eq_rows h] at hshows
  rcases splitOn_eq_lines text with hlines | hlines
  · rw [hlines] at hshows
    exact hshows
  · rw [hlines, Gathered.lines_append] at hshows
    rw [Gathered.lines, Gathered.lines, Gathered.clauses_line_nil] at hshows
    exact hshows

end Elegant

/-! ## Decks -/

/-- Every text can be divided into its code, quotations and comments, and however this is done, its
clauses hold the characters of the statements that it is divided into: all that are no blanks and
stand neither in comments nor at the ends of statements, in their order. Each clause starts on the
line of its first character. -/
theorem shows_cut (d : Dialect) (text : List Char) : (∃ ps, Divided d text ps) ∧
    ∀ ps, Divided d text ps → List.Forall₂ Clause.Shows (cut d text).clauses (portions d ps) ∧
      ∀ s ∈ portions d ps, ∀ g ∈ s, g.StandsIn 1 text := by
  refine ⟨exists_divided d text, fun ps hps => ⟨?_, fun s hs g => standsIn_of_mem_portions hps hs⟩⟩
  cases d with
  | elegant => exact shows_cutElegant hps
  | madx =>
    have hshows := shows_cutMadxFrom hps {} [] (.fresh {})
    rw [ahead_nil] at hshows
    exact hshows

/-- A deck with the marks of both dialects. -/
def markedSpans : List Span :=
  [.code 'A', .comment ['!', ';'], .code '\n', .code 'B', .code '&', .code '\n',
    .quotation ['"', '/', '/', ';', '"'], .code 'C', .code ';', .code 'D']

theorem divided_markedSpans (d : Dialect) :
    Divided d "A!;\nB&\n\"//;\"C;D".toList markedSpans := by
  have hbang : ['!'] ∈ lineMarks d := by
    cases d <;> decide
  have hcomment (rest : List Char) : Span.Fits d (.comment ['!', ';']) ('\n' :: rest) :=
    @Span.Fits.lineComment d ['!'] [';'] _ hbang (by decide) (by rintro _ ⟨⟩; rfl)
  have hquotation (rest : List Char) :
      Span.Fits d (.quotation ['"', '/', '/', ';', '"']) rest :=
    @Span.Fits.quotation d '"' ['/', '/', ';'] _ rfl ⟨by decide, fun _ => by decide⟩
  have hmarks : ∀ mark ∈ lineMarks d ++ blockMarks d, mark.head? ∈ [some '!', some '/'] := by
    cases d <;> decide
  have hcode (c : Char) (rest : List Char) (hquote : isQuote c = false)
      (hc : some c ∉ [some '!', some '/']) : Span.Fits d (.code c) rest := by
    refine .code hquote fun mark hmark ⟨behind, hbehind⟩ => hc ?_
    have hne := (List.mem_append.1 hmark).elim (lineMarks_ne_nil mark) (blockMarks_ne_nil mark)
    have hhead : mark.head? = some c := by
      rw [← List.head?_append_of_ne_nil mark hne, hbehind]
      rfl
    rw [← hhead]
    exact hmarks mark hmark
  exact .cons (hcode 'A' _ rfl (by decide)) (.cons (hcomment _)
    (.cons (hcode '\n' _ rfl (by decide)) (.cons (hcode 'B' _ rfl (by decide))
    (.cons (hcode '&' _ rfl (by decide)) (.cons (hcode '\n' _ rfl (by decide))
    (.cons (hquotation _) (.cons (hcode 'C' _ rfl (by decide))
    (.cons (hcode ';' _ rfl (by decide)) (.cons (hcode 'D' _ rfl (by decide)) .nil)))))))))

/-- In MAD-X the marked deck has two statements, and other two in elegant. -/
theorem shows_cut_markedSpans :
    List.Forall₂ Clause.Shows (cut .madx "A!;\nB&\n\"//;\"C;D".toList).clauses
      [glyphs 1 "A\nB&\n\"//;\"C".toList, glyphs 3 ['D']] ∧
    List.Forall₂ Clause.Shows (cut .elegant "A!;\nB&\n\"//;\"C;D".toList).clauses
      [glyphs 1 ['A'], glyphs 2 "B\n\"//;\"C;D".toList] := by
  have hmadx := ((shows_cut .madx _).2 _ (divided_markedSpans .madx)).1
  have helegant := ((shows_cut .elegant _).2 _ (divided_markedSpans .elegant)).1
  refine ⟨?_, ?_⟩
  · have hportions : portions .madx markedSpans =
        [glyphs 1 "A\nB&\n\"//;\"C".toList, glyphs 3 ['D']] := by decide +kernel
    rwa [hportions] at hmadx
  · have hportions : portions .elegant markedSpans =
        [glyphs 1 ['A'], glyphs 2 "B\n\"//;\"C;D".toList] := by decide +kernel
    rwa [hportions] at helegant

end Beamline.Deck

import Beamline.Proofs.Deck.Value

/-!
# Clauses that are cut as written

* `Deck.IsClause` : texts that stay as they are between two semicolons;
* `Deck.exists_cutMadx` : a MAD-X deck of such texts is cut into them;
* `Deck.isClause_of_code`, `Deck.isClause_title` : the texts of the writer are of that kind;
* `Deck.bracketDepth_le` : brackets nest no deeper than their number;
* `Deck.Coded` : texts that stay as they are in both dialects;
* `Deck.exists_cutElegant`, `Deck.exists_cutElegant_of_codeless` : an elegant deck of such texts is
  cut into them, and into its title.
-/

namespace Beamline.Deck

open Text

/-! ## Characters that are copied -/

/-- The characters that neither end a clause nor start a comment or a quotation. -/
def isCode (c : Char) : Bool :=
  !(['/', '!', ';', '\n', '"', '\''].contains c)

theorem isCode_iff {c : Char} : isCode c ↔
    c ≠ '/' ∧ c ≠ '!' ∧ c ≠ ';' ∧ c ≠ '\n' ∧ c ≠ '"' ∧ c ≠ '\'' := by
  simp [isCode]

theorem cutMadxFrom_cons {c : Char} (hc : c ≠ '/') (r : Reading) (cs : List Char) :
    cutMadxFrom .code r (c :: cs) =
      if c = '!' then cutMadxFrom .lineComment r cs
      else if c = ';' then r.clause?.toList ++ cutMadxFrom .code { r with taken := [] } cs
      else if c = '\n' then cutMadxFrom .code r.newline cs
      else if isBlank c && r.taken.isEmpty then cutMadxFrom .code r cs
      else cutMadxFrom (if isQuote c then .quoted c else .code) (r.take c) cs := by
  rw [cutMadxFrom.eq_def]
  dsimp only
  split
  · exact absurd rfl hc
  · exact absurd rfl hc
  · rfl

theorem cutMadxFrom_take {c : Char} (hc : isCode c) {r : Reading}
    (hr : isBlank c = false ∨ r.taken ≠ []) (cs : List Char) :
    cutMadxFrom .code r (c :: cs) = cutMadxFrom .code (r.take c) cs := by
  obtain ⟨hslash, hbang, hend, hline, hdouble, hsingle⟩ := isCode_iff.1 hc
  have hblank : (isBlank c && r.taken.isEmpty) = false := by
    rcases hr with h | h
    · rw [h, Bool.false_and]
    · rw [List.isEmpty_eq_false_iff.2 h, Bool.and_false]
  have hquote : isQuote c = false := by
    simp [isQuote, hdouble, hsingle]
  rw [cutMadxFrom_cons hslash]
  simp [hbang, hend, hline, hblank, hquote]

theorem cutMadxFrom_code {text : List Char} (h : ∀ c ∈ text, isCode c) (rest : List Char) :
    ∀ r : Reading, r.taken ≠ [] → ∃ r' : Reading, r'.taken = text.reverse ++ r.taken ∧
      cutMadxFrom .code r (text ++ rest) = cutMadxFrom .code r' rest := by
  induction text with
  | nil => exact fun r _ => ⟨r, rfl, rfl⟩
  | cons c text ih =>
    intro r hr
    rw [List.forall_mem_cons] at h
    obtain ⟨r', htaken, heq⟩ := ih h.2 (r.take c) (by simp [Reading.take])
    refine ⟨r', ?_, ?_⟩
    · rw [htaken, List.reverse_cons, List.append_assoc]
      rfl
    · rw [List.cons_append, cutMadxFrom_take h.1 (.inr hr), heq]

theorem cutMadxFrom_quoted {text : List Char} (h : '"' ∉ text) (rest : List Char) :
    ∀ r : Reading, ∃ r' : Reading, r'.taken = '"' :: text.reverse ++ r.taken ∧
      cutMadxFrom (.quoted '"') r (text ++ '"' :: rest) = cutMadxFrom .code r' rest := by
  induction text with
  | nil => exact fun r => ⟨r.take '"', rfl, rfl⟩
  | cons c text ih =>
    intro r
    rw [List.mem_cons, not_or] at h
    obtain ⟨r', htaken, heq⟩ := ih h.2 ((r.take c).count c)
    have hcount : ((r.take c).count c).taken = c :: r.taken := by
      unfold Reading.count
      split <;> rfl
    refine ⟨r', ?_, ?_⟩
    · rw [htaken, hcount, List.reverse_cons]
      simp
    · rw [List.cons_append, cutMadxFrom]
      rw [if_neg (Ne.symm h.1), heq]

/-! ## Clauses -/

/-- A text that is read as it is up to its end, with no blanks at its ends. -/
structure IsClause (text : List Char) : Prop where
  ne_nil : text ≠ []
  head : ∀ c ∈ text.head?, isBlank c = false
  last : ∀ c ∈ text.getLast?, isBlank c = false
  copied : ∀ r : Reading, r.taken = [] → ∀ rest, ∃ r' : Reading, r'.taken = text.reverse ∧
    cutMadxFrom .code r (text ++ rest) = cutMadxFrom .code r' rest

theorem IsClause.cut {text : List Char} (h : IsClause text) {r : Reading} (hr : r.taken = [])
    (rest : List Char) : ∃ (line : Nat) (r' : Reading), r'.taken = [] ∧
      cutMadxFrom .code r (text ++ ';' :: '\n' :: rest) =
        ⟨line, text⟩ :: cutMadxFrom .code r' rest := by
  obtain ⟨r', htaken, heq⟩ := h.copied r hr (';' :: '\n' :: rest)
  refine ⟨r'.start, ({ r' with taken := [] } : Reading).newline, rfl, ?_⟩
  have hclause : r'.clause? = some ⟨r'.start, text⟩ := by
    rw [Reading.clause?, Deck.clause?, htaken, List.reverse_reverse, trim_eq_self h.head h.last]
    cases text with
    | nil => exact absurd rfl h.ne_nil
    | cons c text => rfl
  rw [heq, cutMadxFrom_cons (by decide), if_neg (by decide), if_pos rfl, hclause,
    cutMadxFrom_cons (by decide), if_neg (by decide), if_neg (by decide), if_pos rfl]
  rfl

/-- A deck whose statements stand on lines of their own is cut into their texts. -/
theorem exists_cutMadx {texts : List (List Char)} (h : ∀ text ∈ texts, IsClause text) :
    ∀ r : Reading, r.taken = [] → ∃ clauses,
      cutMadxFrom .code r (texts.flatMap fun text => text ++ [';', '\n']) = clauses ∧
      clauses.map (·.text) = texts := by
  induction texts with
  | nil =>
    intro r hr
    refine ⟨[], ?_, rfl⟩
    rw [List.flatMap_nil, cutMadxFrom, Reading.clause?, hr]
    rfl
  | cons text texts ih =>
    intro r hr
    rw [List.forall_mem_cons] at h
    obtain ⟨line, r', hr', heq⟩ := h.1.cut hr (texts.flatMap fun text => text ++ [';', '\n'])
    obtain ⟨clauses, hclauses, hmap⟩ := ih h.2 r' hr'
    refine ⟨⟨line, text⟩ :: clauses, ?_, by rw [List.map_cons, hmap]⟩
    rw [List.flatMap_cons, List.append_assoc]
    rw [List.cons_append, List.cons_append, List.nil_append, heq, hclauses]

/-- A text without comments, quotations and ends is a clause if no blank stands at its ends. -/
theorem isClause_of_code {text : List Char} (hne : text ≠ []) (hcode : ∀ c ∈ text, isCode c)
    (hhead : ∀ c ∈ text.head?, isBlank c = false)
    (hlast : ∀ c ∈ text.getLast?, isBlank c = false) : IsClause text := by
  refine ⟨hne, hhead, hlast, fun r hr rest => ?_⟩
  obtain ⟨c, text, rfl⟩ := List.exists_cons_of_ne_nil hne
  rw [List.forall_mem_cons] at hcode
  obtain ⟨r', htaken, heq⟩ := cutMadxFrom_code hcode.2 rest (r.take c) (by simp [Reading.take])
  refine ⟨r', ?_, ?_⟩
  · rw [htaken, List.reverse_cons]
    simp [Reading.take, hr]
  · rw [List.cons_append, cutMadxFrom_take hcode.1 (.inl (hhead c rfl)), heq]

/-- A text without quotation marks may stand in a title. -/
theorem isClause_title {title : List Char} (h : '"' ∉ title) :
    IsClause ("TITLE".toList ++ ',' :: ' ' :: '"' :: (title ++ ['"'])) := by
  have htext : "TITLE".toList ++ ',' :: ' ' :: '"' :: (title ++ ['"']) =
      'T' :: (['I', 'T', 'L', 'E', ',', ' '] ++ '"' :: (title ++ ['"'])) := by
    simp
  rw [htext]
  refine ⟨by simp, by rintro _ ⟨⟩; decide, ?_, fun r hr rest => ?_⟩
  · intro c hc
    have hlast : ('T' :: (['I', 'T', 'L', 'E', ',', ' '] ++ '"' :: (title ++ ['"']))).getLast? =
        some '"' := by
      rw [show 'T' :: (['I', 'T', 'L', 'E', ',', ' '] ++ '"' :: (title ++ ['"'])) =
        ('T' :: (['I', 'T', 'L', 'E', ',', ' '] ++ '"' :: title)) ++ ['"'] by simp]
      exact List.getLast?_concat
    rw [hlast] at hc
    cases hc
    decide
  · obtain ⟨r₁, htaken₁, heq₁⟩ := @cutMadxFrom_code ['I', 'T', 'L', 'E', ',', ' ']
      (by simp [isCode])
      ('"' :: (title ++ '"' :: rest)) (r.take 'T') (by simp [Reading.take])
    obtain ⟨r₂, htaken₂, heq₂⟩ := cutMadxFrom_quoted h rest (r₁.take '"')
    refine ⟨r₂, ?_, ?_⟩
    · rw [htaken₂]
      simp [Reading.take, htaken₁, hr]
    · have hopen : cutMadxFrom .code r₁ ('"' :: (title ++ '"' :: rest)) =
          cutMadxFrom (.quoted '"') (r₁.take '"') (title ++ '"' :: rest) := by
        rw [cutMadxFrom_cons (by decide)]
        rfl
      simp only [List.cons_append, List.append_assoc, List.nil_append] at heq₁ ⊢
      rw [cutMadxFrom_take (by decide) (.inl (by decide)), heq₁, hopen, heq₂]

/-! ## Brackets -/

def isOpening (c : Char) : Bool :=
  c == '(' || c == '{'

/-- Brackets nest no deeper than their number. -/
theorem bracketDepthFrom_le (cs : List Char) : ∀ (quote : Option Char) (depth : Nat),
    bracketDepthFrom quote depth cs ≤ depth + cs.countP isOpening := by
  induction cs with
  | nil => exact fun _ _ => Nat.zero_le _
  | cons c cs ih =>
    intro quote depth
    rw [List.countP_cons]
    cases quote with
    | some q =>
      have := ih (if c = q then none else some q) depth
      rw [bracketDepthFrom]
      omega
    | none =>
      -- a character opens a quotation, opens a bracket, closes one, or does neither
      have hquote := ih (some c) depth
      have hopen := ih none (depth + 1)
      have hclose := ih none (depth - 1)
      have hcode := ih none depth
      rw [bracketDepthFrom]
      by_cases h : c = '(' ∨ c = '{'
      · have hopening : isOpening c = true := by simpa [isOpening] using h
        have hnot : isQuote c = false := by
          rcases h with rfl | rfl <;> rfl
        simp only [hnot, hopening, if_true, Bool.false_eq_true, if_false]
        rw [if_pos (by simpa using h)]
        omega
      · have hnot : (c = '(' || c = '{') = false := by simpa using h
        simp only [hnot, Bool.false_eq_true, if_false]
        repeat' split
        all_goals omega

theorem bracketDepth_le (cs : List Char) : bracketDepth cs ≤ cs.countP isOpening := by
  have := bracketDepthFrom_le cs none 0
  unfold bracketDepth
  omega

theorem bracketDepthFrom_quoted {text : List Char} (h : '"' ∉ text) (depth : Nat)
    (rest : List Char) : bracketDepthFrom (some '"') depth (text ++ '"' :: rest) =
      bracketDepthFrom none depth rest := by
  induction text with
  | nil => rfl
  | cons c text ih =>
    rw [List.mem_cons, not_or] at h
    rw [List.cons_append, bracketDepthFrom, if_neg (Ne.symm h.1), ih h.2]

theorem bracketDepth_title {title : List Char} (h : '"' ∉ title) :
    bracketDepth ("TITLE".toList ++ ',' :: ' ' :: '"' :: (title ++ ['"'])) = 0 := by
  show bracketDepthFrom (some '"') 0 (title ++ '"' :: []) = 0
  rw [bracketDepthFrom_quoted h]
  rfl

/-! ## Texts of both dialects -/

/-- A text without comments, quotations and ends. No blank stands at its ends, it is no calculation,
it does not go on in the next line, and its brackets do not nest too deep. -/
structure Coded (text : List Char) : Prop where
  ne_nil : text ≠ []
  code : ∀ c ∈ text, isCode c
  head : ∀ c ∈ text.head?, isBlank c = false ∧ c ≠ '%'
  last : ∀ c ∈ text.getLast?, isBlank c = false ∧ c ≠ '&'
  depth : bracketDepth text ≤ maxBracketDepth

namespace Coded

variable {text : List Char}

theorem isClause (h : Coded text) : IsClause text :=
  isClause_of_code h.ne_nil h.code (fun c hc => (h.head c hc).1) fun c hc => (h.last c hc).1

theorem trim_eq (h : Coded text) : trim text = text :=
  trim_eq_self (fun c hc => (h.head c hc).1) fun c hc => (h.last c hc).1

theorem newline (h : Coded text) : '\n' ∉ text :=
  fun hmem => absurd (h.code _ hmem) (by decide)

end Coded

/-! ## elegant -/

theorem lines_flatMap {ls : List (List Char)} (h : ∀ l ∈ ls, '\n' ∉ l) :
    lines (ls.flatMap fun l => l ++ ['\n']) = ls := by
  have hline : ∀ (l rest : List Char), '\n' ∉ l → lines (l ++ '\n' :: rest) = l :: lines rest := by
    intro l rest hl
    induction l with
    | nil => rfl
    | cons c l ih =>
      rw [List.mem_cons, not_or] at hl
      rw [List.cons_append, lines, if_neg (Ne.symm hl.1), ih hl.2]
  induction ls with
  | nil => rfl
  | cons l ls ih =>
    rw [List.forall_mem_cons] at h
    rw [List.flatMap_cons, List.append_assoc, List.singleton_append, hline _ _ h.1, ih h.2]

theorem lines_ne_nil {cs : List Char} (h : cs ≠ []) : lines cs ≠ [] := by
  cases cs with
  | nil => exact absurd rfl h
  | cons c cs =>
    rw [lines]
    split
    · simp
    · split <;> simp

theorem lines_append (cs rest : List Char) :
    lines (cs ++ '\n' :: rest) = lines (cs ++ ['\n']) ++ lines rest := by
  induction cs with
  | nil => rfl
  | cons c cs ih =>
    rw [List.cons_append, List.cons_append, lines, lines, ih]
    by_cases hc : c = '\n'
    · rw [if_pos hc, if_pos hc, List.cons_append]
    · have hne : cs ++ ['\n'] ≠ [] := by simp
      obtain ⟨l, ls, hl⟩ := List.exists_cons_of_ne_nil (lines_ne_nil hne)
      rw [if_neg hc, if_neg hc, hl]
      rfl

theorem lines_append_line {cs l : List Char} {ls : List (List Char)} (h : lines cs = l :: ls)
    {front : List Char} (hfront : '\n' ∉ front) : lines (front ++ cs) = (front ++ l) :: ls := by
  induction front with
  | nil => exact h
  | cons c front ih =>
    rw [List.mem_cons, not_or] at hfront
    rw [List.cons_append, lines, if_neg (Ne.symm hfront.1), ih hfront.2]
    rfl

theorem splitComment_code {text : List Char} (h : ∀ c ∈ text, isCode c) :
    splitComment none text = (text, none) := by
  induction text with
  | nil => rfl
  | cons c text ih =>
    rw [List.forall_mem_cons] at h
    obtain ⟨-, hbang, -, -, hdouble, hsingle⟩ := isCode_iff.1 h.1
    have hquote : isQuote c = false := by
      simp [isQuote, hdouble, hsingle]
    simp [splitComment, hbang, hquote, ih h.2]

/-- A line without code. -/
def Codeless (l : List Char) : Prop :=
  (continuation (trim (splitComment none l).1)).1 = []

namespace Gathered

variable {g : Gathered} {text : List Char}

theorem lines_append (xs ys : List (List Char)) : ∀ (g : Gathered) (number : Nat),
    g.lines number (xs ++ ys) = (g.lines number xs).lines (number + xs.length) ys := by
  induction xs with
  | nil => exact fun _ _ => rfl
  | cons x xs ih =>
    intro g number
    rw [List.cons_append, lines, ih, lines, List.length_cons, Nat.add_assoc, Nat.add_comm 1]

theorem not_fresh (htitle : g.title ≠ none) :
    (g.title.isNone && g.clauses.isEmpty && g.pending.isNone) = false := by
  rw [Option.isNone_eq_false_iff.2 (Option.isSome_iff_ne_none.2 htitle)]
  rfl

/-- A line without code changes nothing behind the title. -/
theorem line_codeless {l : List Char} (h : Codeless l) (hpending : g.pending = none)
    (htitle : g.title ≠ none) (number : Nat) : g.line number l = g := by
  have hextend : g.extend number [] = g := rfl
  have hfinish : g.finish = g := by
    rw [finish, hpending]
  have hcode : (continuation (trim (splitComment none l).1)).1 = [] := h
  unfold line
  simp only [not_fresh htitle, hcode, hextend, hfinish, ite_self, Bool.false_eq_true, if_false]

theorem lines_codeless {ls : List (List Char)} (h : ∀ l ∈ ls, Codeless l)
    (hpending : g.pending = none) (htitle : g.title ≠ none) : ∀ number, g.lines number ls = g := by
  induction ls with
  | nil => exact fun _ => rfl
  | cons l ls ih =>
    intro number
    rw [List.forall_mem_cons] at h
    rw [lines, line_codeless h.1 hpending htitle, ih h.2]

/-- A coded line is a clause of its own. -/
theorem line_code (h : Coded text) (hpending : g.pending = none) (htitle : g.title ≠ none)
    (number : Nat) : g.line number text = { g with clauses := g.clauses ++ [⟨number, text⟩] } := by
  have hend : continuation text = (text, false) := by
    unfold continuation
    rw [if_neg]
    exact fun hlast => (h.last '&' hlast).2 rfl
  have hextend : g.extend number text = { g with pending := some ⟨number, text ++ [' ']⟩ } := by
    rw [extend, if_neg (by simp [h.ne_nil]), hpending]
    rfl
  have hfinish : (g.extend number text).finish =
      { g with clauses := g.clauses ++ [⟨number, text⟩] } := by
    rw [hextend, finish]
    dsimp only
    rw [trim_concat_blank (by decide), h.trim_eq, hpending]
  unfold line
  simp only [splitComment_code h.code, not_fresh htitle, h.trim_eq, hend, hfinish,
    Bool.false_eq_true, if_false]

theorem exists_lines {texts : List (List Char)} (h : ∀ text ∈ texts, Coded text) :
    ∀ (g : Gathered) (number : Nat), g.pending = none → g.title ≠ none → ∃ clauses,
      g.lines number texts = { g with clauses := g.clauses ++ clauses } ∧
      clauses.map (·.text) = texts := by
  induction texts with
  | nil =>
    intro g number _ _
    exact ⟨[], by rw [List.append_nil]; rfl, rfl⟩
  | cons text texts ih =>
    intro g number hpending htitle
    rw [List.forall_mem_cons] at h
    obtain ⟨clauses, hlines, hmap⟩ := ih h.2
      { g with clauses := g.clauses ++ [⟨number, text⟩] } (number + 1) hpending htitle
    refine ⟨⟨number, text⟩ :: clauses, ?_, by rw [List.map_cons, hmap]⟩
    rw [lines, line_code h.1 hpending htitle, hlines, List.append_assoc]
    rfl

end Gathered

/-- A text on one line with no blanks at its ends. -/
structure IsTitle (title : List Char) : Prop where
  newline : '\n' ∉ title
  head : ∀ c ∈ title.head?, isBlank c = false
  last : ∀ c ∈ title.getLast?, isBlank c = false

/-- The comment that holds a title. -/
def titleComment (title : List Char) : List Char :=
  ' ' :: ("TITLE:".toList ++ ' ' :: title)

theorem titleIn?_titleComment (title : List Char) :
    titleIn? (titleComment title) = some (String.ofList (trim title)) := by
  have htrim : trim (titleComment title) = "TITLE".toList ++ ':' :: trimEnd (' ' :: title) := by
    rw [titleComment, trim_cons_blank (by decide)]
    exact trimEnd_append (by decide) "TITLE".toList (' ' :: title)
  unfold titleIn?
  rw [htrim]
  show some (String.ofList (trim (trimEnd (' ' :: title)))) = _
  rw [trim_trimEnd, trim_cons_blank (by decide)]

/-- The lines of a title. -/
def titleLines (title : List Char) : List (List Char) :=
  lines (title ++ ['\n'])

theorem titleLines_eq_singleton {title : List Char} (h : '\n' ∉ title) :
    titleLines title = [title] := by
  have hline : lines ([title].flatMap fun l => l ++ ['\n']) = [title] :=
    lines_flatMap (by simpa using h)
  simpa [titleLines] using hline

/-- An elegant deck whose statements stand on lines of their own is cut into the first line of its
title and their texts, if the other lines of the title have no code. -/
theorem exists_cutElegant_of_codeless {title first : List Char} {more : List (List Char)}
    (htitle : titleLines title = first :: more) (hmore : ∀ l ∈ more, Codeless l)
    {texts : List (List Char)} (h : ∀ text ∈ texts, Coded text) : ∃ clauses,
      cutElegant ('!' :: titleComment title ++ '\n' :: texts.flatMap fun text => text ++ ['\n']) =
        ⟨clauses, some (String.ofList (trim first))⟩ ∧ clauses.map (·.text) = texts := by
  have hlines : lines ('!' :: titleComment title ++ '\n' ::
      texts.flatMap fun text => text ++ ['\n']) = ('!' :: titleComment first) :: more ++ texts := by
    rw [lines_append, lines_flatMap fun text htext => (h text htext).newline]
    have hfront : '\n' ∉ '!' :: ' ' :: ("TITLE:".toList ++ [' ']) := by decide
    congr 1
    exact lines_append_line htitle hfront
  have hfirst : ({} : Gathered).line 1 ('!' :: titleComment first) =
      { title := some (String.ofList (trim first)) } := by
    rw [← titleIn?_titleComment first]
    rfl
  obtain ⟨clauses, hclauses, hmap⟩ := Gathered.exists_lines h
    { title := some (String.ofList (trim first)) } (2 + more.length) rfl (Option.some_ne_none _)
  refine ⟨clauses, ?_, hmap⟩
  unfold cutElegant
  rw [hlines, List.cons_append, Gathered.lines, hfirst, Gathered.lines_append,
    Gathered.lines_codeless hmore rfl (Option.some_ne_none _), hclauses]
  rfl

/-- An elegant deck whose statements stand on lines of their own is cut into its title and their
texts. -/
theorem exists_cutElegant {title : List Char} (htitle : IsTitle title) {texts : List (List Char)}
    (h : ∀ text ∈ texts, Coded text) : ∃ clauses,
      cutElegant ((('!' :: titleComment title) :: texts).flatMap fun text => text ++ ['\n']) =
        ⟨clauses, some (String.ofList title)⟩ ∧ clauses.map (·.text) = texts := by
  obtain ⟨clauses, hcut, hmap⟩ :=
    exists_cutElegant_of_codeless (titleLines_eq_singleton htitle.newline) (by simp) h
  rw [trim_eq_self htitle.head htitle.last] at hcut
  refine ⟨clauses, ?_, hmap⟩
  rw [← hcut, List.flatMap_cons, List.append_assoc]
  rfl

end Beamline.Deck

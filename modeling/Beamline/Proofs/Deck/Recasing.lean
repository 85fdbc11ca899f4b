import Beamline.Proofs.Deck.Places
import Beamline.Proofs.Deck.Splitting
import Beamline.Proofs.Text.LetterCase

/-!
# Decks in other letters

* `quotedFrom` : what stands in quotation marks;
* `Recased` : decks that differ in the case of letters, comments and quotations apart;
* `Gathered.upper_line`, `cutMadxFrom_upper` : the marks at which a deck is cut are no letters, so
  that it can be put in upper case before it is cut or after that;
* `Recased.clauses` : such decks are cut at the same places.
-/

namespace Beamline.Deck

open Text

/-! ## Quotations -/

/-- The characters of a text that stand in quotation marks; `quote` is the mark that it starts
behind. -/
def quotedFrom (quote : Option Char) : List Char → List Char
  | [] => []
  | c :: cs =>
    match quote with
    | some q => if c = q then quotedFrom none cs else c :: quotedFrom (some q) cs
    | none => quotedFrom (if isQuote c then some c else none) cs

theorem isAlpha_of_isQuote {c : Char} (h : isQuote c) : c.isAlpha = false := by
  simp only [isQuote, Bool.or_eq_true, beq_iff_eq] at h
  rcases h with rfl | rfl <;> decide

theorem caseless_isQuote : Caseless isQuote :=
  caseless_of_letters fun c hc => Bool.eq_false_of_not_eq_true fun hquote => by
    rw [isAlpha_of_isQuote hquote] at hc
    cases hc

/-- Quotation marks are the same in upper case. -/
theorem mark_upper (c : Char) : (if isQuote c.toUpper then some c.toUpper else none) =
    if isQuote c then some c else none := by
  rw [caseless_isQuote]
  split
  · rename_i hc
    rw [(toUpper_eq_iff (isAlpha_of_isQuote hc)).2 rfl]
  · rfl

/-- A mark that opens a quotation, if there is one. -/
def Opens (quote : Option Char) : Prop :=
  ∀ q ∈ quote, isQuote q

theorem opens_none : Opens none :=
  nofun

theorem opens_mark (c : Char) : Opens (if isQuote c then some c else none) := by
  split
  · rename_i hc
    rintro _ ⟨⟩
    exact hc
  · exact opens_none

theorem Opens.close {q : Char} (h : Opens (some q)) (P : Prop) [Decidable P] :
    Opens (if P then none else some q) := by
  split
  · exact opens_none
  · exact h

theorem Opens.toUpper_eq_iff {q c : Char} (h : Opens (some q)) : c.toUpper = q ↔ c = q :=
  Text.toUpper_eq_iff (isAlpha_of_isQuote (h q rfl))

/-- Brackets are no letters. -/
theorem bracketDepthFrom_upper (cs : List Char) : ∀ {quote : Option Char} (depth : Nat),
    Opens quote → bracketDepthFrom quote depth (upper cs) = bracketDepthFrom quote depth cs := by
  induction cs with
  | nil => exact fun _ _ => rfl
  | cons c cs ih =>
    intro quote depth hquote
    rw [upper_cons]
    cases quote with
    | some q =>
      rw [bracketDepthFrom, bracketDepthFrom]
      simp only [hquote.toUpper_eq_iff]
      exact ih depth (hquote.close _)
    | none =>
      have hmark {k : Char} (hk : k.isAlpha = false) : (c.toUpper = k) = (c = k) :=
        propext (toUpper_eq_iff hk)
      rw [bracketDepthFrom, bracketDepthFrom, caseless_isQuote]
      simp only [hmark (k := '(') rfl, hmark (k := ')') rfl, hmark (k := '{') rfl,
        hmark (k := '}') rfl, ih _ opens_none]
      split
      · rename_i hc
        rw [(toUpper_eq_iff (isAlpha_of_isQuote hc)).2 rfl]
        exact ih depth fun q hq => by cases hq; exact hc
      · rfl

theorem bracketDepth_upper (cs : List Char) : bracketDepth (upper cs) = bracketDepth cs :=
  bracketDepthFrom_upper cs 0 opens_none

/-! ## Clauses in upper case -/

/-- A clause in upper case. -/
def Clause.upper (c : Clause) : Clause :=
  { c with text := Text.upper c.text }

theorem clause?_upper (line : Nat) (text : List Char) :
    clause? line (Text.upper text) = (clause? line text).map Clause.upper := by
  rw [clause?, clause?, trim_upper]
  cases trim text <;> rfl

/-! ### elegant -/

theorem lines_upper (text : List Char) : lines (upper text) = (lines text).map upper := by
  induction text with
  | nil => rfl
  | cons c cs ih =>
    rw [upper_cons, lines, lines, ih]
    simp only [toUpper_eq_iff (k := '\n') rfl]
    split
    · rfl
    · cases lines cs <;> rfl

theorem splitComment_upper (l : List Char) : ∀ {quote : Option Char}, Opens quote →
    (splitComment quote (upper l)).1 = upper (splitComment quote l).1 := by
  induction l with
  | nil => exact fun _ => rfl
  | cons c l ih =>
    intro quote hquote
    rw [upper_cons]
    cases quote with
    | some q =>
      rw [splitComment, splitComment]
      simp only [hquote.toUpper_eq_iff]
      exact congrArg _ (ih (hquote.close _))
    | none =>
      rw [splitComment, splitComment, mark_upper]
      simp only [toUpper_eq_iff (k := '!') rfl]
      split
      · rfl
      · exact congrArg _ (ih (opens_mark c))

/-- The comment of a line of an elegant deck. -/
def commentOf (l : List Char) : Option (List Char) :=
  (splitComment none l).2

theorem continuation_upper (code : List Char) :
    continuation (upper code) = (upper (continuation code).1, (continuation code).2) := by
  have hlast : (upper code).getLast? = some '&' ↔ code.getLast? = some '&' := by
    rw [upper, List.getLast?_map, Option.map_eq_some_iff]
    simp only [toUpper_eq_iff (k := '&') rfl, exists_eq_right]
  rw [continuation, continuation]
  simp only [hlast]
  split
  · rw [upper, ← List.map_dropLast]
    rfl
  · rfl

theorem codeOf_upper (l : List Char) :
    codeOf (upper l) = (upper (codeOf l).1, (codeOf l).2) := by
  rw [codeOf, splitComment_upper l opens_none, trim_upper, continuation_upper]
  rfl

namespace Gathered

/-- What has been read of a deck, in upper case; the title stays as it is. -/
def upper (g : Gathered) : Gathered :=
  { g with clauses := g.clauses.map Clause.upper, pending := g.pending.map Clause.upper }

/-- The title that is known behind a line with the given comment. -/
def entitle (g : Gathered) (comment : Option (List Char)) : Gathered :=
  if g.title.isNone && g.clauses.isEmpty && g.pending.isNone then
    { g with title := comment.bind titleIn? }
  else g

theorem line_eq (g : Gathered) (n : Nat) (l : List Char) : g.line n l =
    if (codeOf l).2 then (g.entitle (commentOf l)).extend n (codeOf l).1
    else ((g.entitle (commentOf l)).extend n (codeOf l).1).finish :=
  rfl

theorem upper_entitle (g : Gathered) (comment : Option (List Char)) :
    (g.entitle comment).upper = g.upper.entitle comment := by
  have hclauses : g.upper.clauses.isEmpty = g.clauses.isEmpty := List.isEmpty_map
  have hpending : g.upper.pending.isNone = g.pending.isNone := Option.isNone_map
  rw [entitle, entitle, hclauses, hpending]
  show _ = if g.title.isNone && _ && _ then _ else _
  split <;> rfl

theorem upper_extend (g : Gathered) (n : Nat) (code : List Char) :
    (g.extend n code).upper = g.upper.extend n (Text.upper code) := by
  have hempty : (Text.upper code).isEmpty = code.isEmpty := List.isEmpty_map
  rw [extend, extend, hempty]
  split
  · rfl
  · cases hpending : g.pending <;> simp [upper, Clause.upper, hpending, Text.upper]

theorem upper_finish (g : Gathered) : g.finish.upper = g.upper.finish := by
  cases hpending : g.pending with
  | none => simp [finish, upper, hpending]
  | some c => simp [finish, upper, Clause.upper, hpending, trim_upper]

/-- A line is taken in alike whatever the case of the letters in its code. -/
theorem upper_line (g : Gathered) (n : Nat) (l : List Char) : (g.line n l).upper =
    if (codeOf (Text.upper l)).2 then
      (g.upper.entitle (commentOf l)).extend n (codeOf (Text.upper l)).1
    else ((g.upper.entitle (commentOf l)).extend n (codeOf (Text.upper l)).1).finish := by
  rw [line_eq, codeOf_upper, ← upper_entitle, ← upper_extend, ← upper_finish]
  split <;> rfl

/-- Lines that differ in the case of letters only, and not in their comments. -/
theorem upper_lines {ls : List (List Char)} : ∀ {ls' : List (List Char)} {g h : Gathered} (n : Nat),
    g.upper = h.upper → ls.map Text.upper = ls'.map Text.upper →
    ls.map commentOf = ls'.map commentOf →
    (g.lines n ls).upper = (h.lines n ls').upper := by
  induction ls with
  | nil =>
    intro ls' g h n hgh hls _
    cases List.map_eq_nil_iff.1 hls.symm
    exact hgh
  | cons l ls ih =>
    intro ls' g h n hgh hls hcomments
    cases ls' with
    | nil => cases hls
    | cons l' ls' =>
      obtain ⟨hl, hls⟩ := List.cons.inj hls
      obtain ⟨hcomment, hcomments⟩ := List.cons.inj hcomments
      have hline : (g.line n l).upper = (h.line n l').upper := by
        rw [upper_line, upper_line, hgh, hl, hcomment]
      exact ih (n + 1) hline hls hcomments

end Gathered

/-! ### MAD-X -/

/-- A reading in upper case. -/
def Reading.upper (r : Reading) : Reading :=
  { r with taken := Text.upper r.taken }

namespace Reading

theorem upper_clause? (r : Reading) : r.upper.clause? = r.clause?.map Clause.upper := by
  rw [clause?, clause?, ← clause?_upper, Text.upper, List.map_reverse]
  rfl

theorem isEmpty_upper (r : Reading) : r.upper.taken.isEmpty = r.taken.isEmpty :=
  List.isEmpty_map

theorem upper_take (r : Reading) (c : Char) : (r.take c).upper = r.upper.take c.toUpper := by
  rw [take, take, isEmpty_upper]
  rfl

theorem upper_newline (r : Reading) : r.newline.upper = r.upper.newline := by
  rw [newline, newline, isEmpty_upper, upper, upper]
  split <;> rfl

theorem upper_count (r : Reading) (c : Char) : (r.count c).upper = r.upper.count c.toUpper := by
  rw [count, count]
  simp only [toUpper_eq_iff (k := '\n') rfl]
  split <;> rfl

end Reading

/-- A place in a deck that is in no quotation, or in one that a quotation mark has opened. -/
def Within.Opened (w : Within) : Prop :=
  ∀ q, w = .quoted q → isQuote q

namespace Within

theorem opened_code : Opened .code := by
  intro q hq
  cases hq

theorem opened_lineComment : Opened .lineComment := by
  intro q hq
  cases hq

theorem opened_blockComment (star : Bool) : Opened (.blockComment star) := by
  intro q hq
  cases hq

end Within

/-- The first character of a text that does not start with a comment is told apart by marks that
are no letters. -/
theorem cutMadxFrom_toUpper {c : Char} {cs : List Char} (hline : ∀ rest, c = '/' → cs ≠ '/' :: rest)
    (hblock : ∀ rest, c = '/' → cs ≠ '*' :: rest) (r : Reading) :
    cutMadxFrom .code r (c.toUpper :: upper cs) =
      if c = '!' then cutMadxFrom .lineComment r (upper cs)
      else if c = ';' then r.clause?.toList ++ cutMadxFrom .code { r with taken := [] } (upper cs)
      else if c = '\n' then cutMadxFrom .code r.newline (upper cs)
      else if isBlank c && r.taken.isEmpty then cutMadxFrom .code r (upper cs)
      else cutMadxFrom (if isQuote c then .quoted c else .code) (r.take c.toUpper) (upper cs) := by
  have hplace : (if isQuote c.toUpper then Within.quoted c.toUpper else .code) =
      if isQuote c then .quoted c else .code := by
    rw [caseless_isQuote]
    split
    · rename_i hc
      rw [(toUpper_eq_iff (isAlpha_of_isQuote hc)).2 rfl]
    · rfl
  have hstart {k : Char} (hk : k.isAlpha = false) (hne : ∀ rest, c = '/' → cs ≠ k :: rest)
      (rest : List Char) (hc : c.toUpper = '/') (hcs : upper cs = k :: rest) : False := by
    obtain ⟨rest', hcs, -⟩ := (upper_eq_cons hk).1 hcs
    exact hne rest' ((toUpper_eq_iff rfl).1 hc) hcs
  rw [cutMadxFrom, hplace, caseless_isBlank]
  · simp only [toUpper_eq_iff (k := '!') rfl, toUpper_eq_iff (k := ';') rfl,
      toUpper_eq_iff (k := '\n') rfl]
  · exact hstart rfl hline
  · exact hstart rfl hblock

theorem cutMadxFrom_upper (w : Within) (r : Reading) (cs : List Char) (hw : w.Opened) :
    cutMadxFrom w r.upper (upper cs) = (cutMadxFrom w r cs).map Clause.upper := by
  fun_induction cutMadxFrom w r cs
  case case1 w r =>
    rw [upper_nil, cutMadxFrom, Reading.upper_clause?]
    cases r.clause? <;> rfl
  case case2 r c cs q ih =>
    have hq : Opens (some q) := fun _ h => by cases h; exact hw q rfl
    rw [upper_cons, cutMadxFrom]
    simp only [hq.toUpper_eq_iff]
    rw [← Reading.upper_take, ← Reading.upper_count]
    refine ih ?_
    split
    · exact Within.opened_code
    · exact hw
  case case3 r cs ih =>
    rw [upper_cons, cutMadxFrom, if_pos ((toUpper_eq_iff rfl).2 rfl), ← Reading.upper_newline]
    exact ih Within.opened_code
  case case4 r c cs hc ih =>
    rw [upper_cons, cutMadxFrom, if_neg (mt (toUpper_eq_iff rfl).1 hc)]
    exact ih Within.opened_lineComment
  case case5 r c cs star hclose ih =>
    rw [upper_cons, cutMadxFrom]
    simp only [toUpper_eq_iff (k := '/') rfl]
    rw [if_pos hclose]
    exact ih Within.opened_code
  case case6 r c cs star hopen ih =>
    rw [upper_cons, cutMadxFrom]
    simp only [toUpper_eq_iff (k := '/') rfl, toUpper_eq_iff (k := '*') rfl]
    rw [if_neg hopen, ← Reading.upper_count]
    exact ih (Within.opened_blockComment _)
  case case7 r cs ih =>
    exact ih Within.opened_lineComment
  case case8 r cs ih =>
    exact ih (Within.opened_blockComment _)
  case case9 r cs hline hblock ih =>
    exact ih Within.opened_lineComment
  case case10 r cs hline hblock hbang ih =>
    rw [upper_cons, cutMadxFrom_toUpper hline hblock, if_neg hbang, if_pos rfl, List.map_append,
      Reading.upper_clause?, ← ih Within.opened_code]
    cases r.clause? <;> rfl
  case case11 r cs hline hblock hbang hend ih =>
    rw [upper_cons, cutMadxFrom_toUpper hline hblock, if_neg hbang, if_neg hend, if_pos rfl,
      ← Reading.upper_newline]
    exact ih Within.opened_code
  case case12 r c cs hline hblock hbang hend hnewline hblank ih =>
    rw [upper_cons, cutMadxFrom_toUpper hline hblock, if_neg hbang, if_neg hend, if_neg hnewline,
      Reading.isEmpty_upper, if_pos hblank]
    exact ih Within.opened_code
  case case13 r c cs hline hblock hbang hend hnewline hblank ih =>
    rw [upper_cons, cutMadxFrom_toUpper hline hblock, if_neg hbang, if_neg hend, if_neg hnewline,
      Reading.isEmpty_upper, if_neg hblank, ← Reading.upper_take]
    refine ih ?_
    split
    · rename_i hc
      intro q hq
      cases hq
      exact hc
    · exact Within.opened_code

/-! ## Decks in other letters -/

/-- `text` and `text'` differ in the case of letters only. The letters in quotation marks of their
clauses are the same, and so are those in the comments of an elegant deck, where a title may be. -/
structure Recased (d : Dialect) (text text' : List Char) : Prop where
  letters : upper text = upper text'
  comments : d = .elegant → (lines text).map commentOf = (lines text').map commentOf
  quotations : (cut d text).clauses.map (fun c => quotedFrom none c.text) =
    (cut d text').clauses.map (fun c => quotedFrom none c.text)

variable {d : Dialect} {text text' : List Char}

/-- Decks that differ in the case of letters only are cut at the same places. -/
theorem Recased.clauses (h : Recased d text text') :
    (cut d text).clauses.map Clause.upper = (cut d text').clauses.map Clause.upper ∧
    (cut d text).title = (cut d text').title := by
  cases d with
  | elegant =>
    have hlines : (lines text).map upper = (lines text').map upper := by
      rw [← lines_upper, h.letters, lines_upper]
    have hgathered := Gathered.upper_lines 1 (Eq.refl ({} : Gathered).upper) hlines (h.comments rfl)
    have hfinish : (({} : Gathered).lines 1 (lines text)).finish.upper =
        (({} : Gathered).lines 1 (lines text')).finish.upper := by
      rw [Gathered.upper_finish, hgathered, Gathered.upper_finish]
    exact ⟨congrArg Gathered.clauses hfinish, by injection hfinish⟩
  | madx =>
    have hcut (t : List Char) :
        (cutMadx t).clauses.map Clause.upper = cutMadxFrom .code {} (upper t) :=
      (cutMadxFrom_upper .code {} t Within.opened_code).symm
    exact ⟨by rw [cut, cut, hcut, h.letters, hcut], rfl⟩

end Beamline.Deck

import Beamline.Proofs.Json.Writer

/-!
# The lines of an encoded text

The layout of encoded documents breaks its lines around the members of objects, as long as only
objects lie around them.

* `rows before after v` : the lines that a value has, `before` in front of it and `after` behind;
* `flatMap_rows` : the layout writes these lines and no others;
* `newline_notMem_quote`, `newline_notMem_line` : no string has a line feed of its own, and
  neither has what is written on one line;
* `splitOn_layoutText` : so the lines of the layout are the rows, each ended by one line feed.
-/

namespace Beamline.Json

open Decimal Text

/-! ## Rows -/

/-- A row one level further in. -/
def indent (row : List Char) : List Char :=
  ' ' :: ' ' :: row

/-- What stands in front of the value of a member. -/
def label (key : String) : List Char :=
  quote key ++ [':', ' ']

/-- What stands behind a member before the members `ms`. -/
def commaBefore (ms : List (String × Json)) : List Char :=
  if ms.isEmpty then [] else [',']

mutual

/-- The lines of a value with `before` in front of it and `after` behind. An object that has
members opens and closes on a line of its own; every other value stays on one line. -/
def rows (before after : List Char) : Json → List (List Char)
  | .obj (m :: ms) => (before ++ ['{']) :: (memberRows (m :: ms)).map indent ++ ['}' :: after]
  | v => [before ++ (line .spaced v ++ after)]

/-- The lines of members one after the other. -/
def memberRows : List (String × Json) → List (List Char)
  | [] => []
  | (key, v) :: ms => rows (label key) (commaBefore ms) v ++ memberRows ms

end

/-! ## The layout is its rows -/

theorem newline_indent (level : Nat) (row : List Char) :
    newline level ++ indent row = newline (level + 1) ++ row := by
  rw [newline, newline, Nat.mul_succ, List.replicate_add]
  simp [indent]

theorem flatMap_indent (level : Nat) (rs : List (List Char)) :
    (rs.map indent).flatMap (newline level ++ ·) = rs.flatMap (newline (level + 1) ++ ·) := by
  rw [List.flatMap_map]
  exact List.flatMap_congr fun row _ => newline_indent level row

theorem flatMap_memberRows (level : Nat) (m : String × Json) (ms : List (String × Json))
    (h : ∀ w ∈ m :: ms, ∀ before after, (rows before after w.2).flatMap (newline (level + 1) ++ ·) =
      newline (level + 1) ++ (before ++ (block (level + 1) w.2 ++ after))) :
    (memberRows (m :: ms)).flatMap (newline (level + 1) ++ ·) ++ newline level ++ ['}'] =
      newline (level + 1) ++ blockMembers level (m :: ms) := by
  induction ms generalizing m with
  | nil =>
    rw [memberRows, memberRows, List.append_nil, h m List.mem_cons_self, blockMembers]
    simp [label, commaBefore]
  | cons w ms ih =>
    obtain ⟨hm, hms⟩ := List.forall_mem_cons.1 h
    have hmore : blockMembers level (m :: w :: ms) = label m.1 ++ (block (level + 1) m.2 ++
        (commaBefore (w :: ms) ++ (newline (level + 1) ++ blockMembers level (w :: ms)))) := by
      simp [blockMembers_cons_cons, label, commaBefore]
    rw [memberRows, List.flatMap_append, hm, hmore, ← ih w hms]
    simp only [List.append_assoc]

/-- Each row stands behind a line feed and the blanks of its level. -/
theorem flatMap_rows (level : Nat) (before after : List Char) (v : Json) :
    (rows before after v).flatMap (newline level ++ ·) =
      newline level ++ (before ++ (block level v ++ after)) := by
  induction v using induct generalizing level before after with
  | obj members ih =>
    cases members with
    | nil => simp [rows, block, line, lineMembers]
    | cons m ms =>
      have hmembers := flatMap_memberRows level m ms fun w hw before after => ih w hw _ before after
      rw [rows, List.flatMap_append, List.flatMap_cons, flatMap_indent, block, List.cons_append,
        ← hmembers]
      simp
  | _ => simp [rows, block, line]

/-- What stands behind line feeds stands before them if there is one more in front. -/
theorem cons_flatMap_append (c : Char) (rs : List (List Char)) :
    c :: rs.flatMap (· ++ [c]) = rs.flatMap (c :: ·) ++ [c] := by
  induction rs with
  | nil => rfl
  | cons r rs ih => simp [← ih]

/-- Every row of the layout ends in a line feed. -/
theorem layout_eq_flatMap (v : Json) : v.layout = (rows [] [] v).flatMap (· ++ ['\n']) := by
  have hrows := flatMap_rows 0 [] [] v
  rw [← List.cons_inj_right '\n', cons_flatMap_append, layout]
  simpa [newline] using congrArg (· ++ ['\n']) hrows.symm

/-! ## No other line feeds -/

theorem newline_notMem_escaped (c : Char) : '\n' ∉ escaped c := by
  unfold escaped
  split_ifs with hquote hslash hbackspace hfeed hnewline hreturn htab hcontrol
  any_goals decide
  · have hhigh := hexDigit_ne (c := '\n') rfl (n := c.toNat / 16) (by omega)
    have hlow := hexDigit_ne (c := '\n') rfl (n := c.toNat % 16) (by omega)
    simp [hhigh.symm, hlow.symm]
  · simpa using Ne.symm hnewline

/-- A string has no line feed of its own. -/
theorem newline_notMem_quote (s : String) : '\n' ∉ quote s := by
  have hchars : '\n' ∉ s.toList.flatMap escaped := by
    rw [List.mem_flatMap]
    rintro ⟨c, -, hc⟩
    exact newline_notMem_escaped c hc
  simp [quote, hchars]

theorem newline_notMem_digits {ds : List Char} (h : ∀ c ∈ ds, c.isDigit) : '\n' ∉ ds :=
  fun hc => absurd (h _ hc) (by decide)

theorem newline_notMem_digitsOfNat (n : Nat) : '\n' ∉ digitsOfNat n :=
  newline_notMem_digits fun _ hc => isDigit_of_mem_digitsOfNat hc

theorem newline_notMem_numeral {n : Numeral} (hn : n.Good) : '\n' ∉ n.text := by
  have hwhole := newline_notMem_digits hn.whole_digits
  have hfraction := newline_notMem_digits hn.fraction_digits
  have hexponent : ∀ e, '\n' ∉ Numeral.exponentText e := by
    intro e
    unfold Numeral.exponentText
    split_ifs <;> simp [newline_notMem_digitsOfNat]
  unfold Numeral.text
  cases n.exponent <;> split_ifs <;> simp [hwhole, hfraction, hexponent]

theorem newline_notMem_numberText (n : Number) : '\n' ∉ numberText n := by
  cases n with
  | whole n =>
    rw [numberText, wholeText]
    split_ifs <;> simp [newline_notMem_digitsOfNat]
  | float x =>
    rw [numberText]
    split_ifs with hx
    · obtain ⟨negative, n, hw⟩ := exists_written (s := .json) (.inr rfl) hx
      rw [hw.text, signText]
      split_ifs <;> simp [newline_notMem_numeral hw.good]
    · decide

section Line

variable {m : Marks} (hcomma : '\n' ∉ m.comma) (hcolon : '\n' ∉ m.colon)

include hcomma in
theorem newline_notMem_lineItems {items : List Json} (h : ∀ v ∈ items, '\n' ∉ line m v) :
    '\n' ∉ lineItems m items := by
  induction items with
  | nil => simp [lineItems]
  | cons v items ih =>
    obtain ⟨hv, hitems⟩ := List.forall_mem_cons.1 h
    cases items with
    | nil => simp [lineItems, hv]
    | cons w items =>
      rw [lineItems_cons_cons]
      simp [hv, hcomma, ih hitems]

include hcomma hcolon in
theorem newline_notMem_lineMembers {members : List (String × Json)}
    (h : ∀ w ∈ members, '\n' ∉ line m w.2) : '\n' ∉ lineMembers m members := by
  induction members with
  | nil => simp [lineMembers]
  | cons w members ih =>
    obtain ⟨hw, hmembers⟩ := List.forall_mem_cons.1 h
    have hkey := newline_notMem_quote w.1
    cases members with
    | nil => simp [lineMembers, hkey, hw, hcolon]
    | cons w' members =>
      rw [lineMembers_cons_cons]
      simp [hkey, hw, hcomma, hcolon, ih hmembers]

include hcomma hcolon in
/-- What is written on one line has no line feed. -/
theorem newline_notMem_line (v : Json) : '\n' ∉ line m v := by
  induction v using induct with
  | null =>
    rw [line]
    decide
  | bool b =>
    rw [line]
    cases b <;> decide
  | num n => simpa [line, scalarText] using newline_notMem_numberText n
  | str s => simpa [line, scalarText] using newline_notMem_quote s
  | arr items ih => simpa [line] using newline_notMem_lineItems hcomma ih
  | obj members ih => simpa [line] using newline_notMem_lineMembers hcomma hcolon ih

end Line

/-! ## The lines of the layout -/

theorem numberText_ne_nil (n : Number) : numberText n ≠ [] := by
  cases n with
  | whole n =>
    rw [numberText, wholeText]
    split_ifs
    · exact List.cons_ne_nil _ _
    · exact digitsOfNat_ne_nil _
  | float x =>
    rw [numberText]
    split_ifs with hx
    · obtain ⟨negative, n, hw⟩ := exists_written (s := .json) (.inr rfl) hx
      rw [hw.text, signText]
      split_ifs <;> simp [Numeral.text, hw.good.whole_ne_nil]
    · exact List.cons_ne_nil _ _

theorem line_ne_nil (m : Marks) (v : Json) : line m v ≠ [] := by
  cases v with
  | num n => simpa [line, scalarText] using numberText_ne_nil n
  | bool b => cases b <;> simp [line, scalarText]
  | _ => simp [line, scalarText, quote]

/-- A line of a text: it is not empty and does not break. -/
structure Row (row : List Char) : Prop where
  ne_nil : row ≠ []
  unbroken : '\n' ∉ row

theorem Row.indent {row : List Char} (h : Row row) : Row (indent row) :=
  ⟨List.cons_ne_nil _ _, by simp [Json.indent, h.unbroken]⟩

theorem newline_notMem_label (key : String) : '\n' ∉ label key := by
  simp [label, newline_notMem_quote]

theorem newline_notMem_commaBefore (ms : List (String × Json)) : '\n' ∉ commaBefore ms := by
  unfold commaBefore
  split_ifs <;> simp

theorem row_line {before after : List Char} (hbefore : '\n' ∉ before) (hafter : '\n' ∉ after)
    (v : Json) : Row (before ++ (line .spaced v ++ after)) :=
  ⟨by simp [line_ne_nil],
    by simp [hbefore, hafter, newline_notMem_line (m := .spaced) (by decide) (by decide) v]⟩

theorem row_of_mem_memberRows {ms : List (String × Json)}
    (h : ∀ m ∈ ms, ∀ {before after}, '\n' ∉ before → '\n' ∉ after →
      ∀ row ∈ rows before after m.2, Row row) : ∀ row ∈ memberRows ms, Row row := by
  induction ms with
  | nil => simp [memberRows]
  | cons m ms ih =>
    obtain ⟨hm, hms⟩ := List.forall_mem_cons.1 h
    intro row hrow
    rw [memberRows, List.mem_append] at hrow
    rcases hrow with hrow | hrow
    · exact hm (newline_notMem_label m.1) (newline_notMem_commaBefore ms) row hrow
    · exact ih hms row hrow

/-- No row is empty and none of them breaks. -/
theorem row_of_mem_rows {before after : List Char} (hbefore : '\n' ∉ before)
    (hafter : '\n' ∉ after) (v : Json) : ∀ row ∈ rows before after v, Row row := by
  induction v using induct generalizing before after with
  | obj members ih =>
    cases members with
    | nil => simpa [rows] using row_line hbefore hafter (.obj [])
    | cons m ms =>
      intro row hrow
      rw [rows, List.mem_append, List.mem_cons, List.mem_map, List.mem_singleton] at hrow
      rcases hrow with (rfl | ⟨row, hrow, rfl⟩) | rfl
      · exact ⟨by simp, by simp [hbefore]⟩
      · exact (row_of_mem_memberRows ih row hrow).indent
      · exact ⟨List.cons_ne_nil _ _, by simp [hafter]⟩
  | _ => simpa [rows] using row_line hbefore hafter _

theorem intercalate_concat_nil (sep : List Char) (rs : List (List Char)) :
    sep.intercalate (rs ++ [[]]) = rs.flatMap (· ++ sep) := by
  induction rs with
  | nil => rfl
  | cons r rs ih =>
    rw [List.flatMap_cons, ← ih]
    cases rs with
    | nil => simp [List.intercalate]
    | cons r' rs => exact List.intercalate_cons_cons

/-- The lines of the layout are the rows, and the last of them ends in a line feed. -/
theorem splitOn_layoutText (v : Json) :
    v.layoutText.toList.splitOn '\n' = rows [] [] v ++ [[]] := by
  rw [layoutText, String.toList_ofList, layout_eq_flatMap, ← intercalate_concat_nil,
    List.splitOn_intercalate _ _ (by simp)]
  intro row hrow
  rcases List.mem_append.1 hrow with hrow | hrow
  · exact (row_of_mem_rows List.not_mem_nil List.not_mem_nil v row hrow).unbroken
  · rw [List.mem_singleton.1 hrow]
    exact List.not_mem_nil

/-! ## Members on one line -/

/-- A member on one line. -/
def memberLine (m : String × Json) : List Char :=
  label m.1 ++ line .spaced m.2

/-- The lines of members that all stay on one line. -/
def entryRows : List (String × Json) → List (List Char)
  | [] => []
  | m :: ms => (memberLine m ++ commaBefore ms) :: entryRows ms

/-- A line without its indent and the comma behind it. -/
def bare (row : List Char) : List Char :=
  let text := row.dropWhile (· == ' ')
  if text.getLast? = some ',' then text.dropLast else text

/-- The lines of an object whose members all stay on one line, behind the name `key`. -/
def tableRows (key : String) (after : List Char) : List (String × Json) → List (List Char)
  | [] => [label key ++ ('{' :: '}' :: after)]
  | m :: ms => (label key ++ ['{']) :: (entryRows (m :: ms)).map indent ++ ['}' :: after]

/-- A value that stays on one line, whatever stands around it. -/
def OneLine (v : Json) : Prop :=
  ∀ before after, rows before after v = [before ++ (line .spaced v ++ after)]

theorem oneLine_str (s : String) : OneLine (.str s) := fun _ _ => by simp [rows]

theorem oneLine_arr (items : List Json) : OneLine (.arr items) := fun _ _ => by simp [rows]

theorem memberRows_eq_entryRows {entries : List (String × Json)}
    (h : ∀ m ∈ entries, OneLine m.2) : memberRows entries = entryRows entries := by
  induction entries with
  | nil => rw [memberRows, entryRows]
  | cons m entries ih =>
    obtain ⟨hm, hentries⟩ := List.forall_mem_cons.1 h
    rw [memberRows, entryRows, ih hentries, memberLine, hm, List.append_assoc,
      List.singleton_append]

theorem rows_eq_tableRows (key : String) (after : List Char) {entries : List (String × Json)}
    (h : ∀ m ∈ entries, OneLine m.2) :
    rows (label key) after (.obj entries) = tableRows key after entries := by
  cases entries with
  | nil => simp [rows, tableRows, line, lineMembers]
  | cons m entries => rw [rows, tableRows, memberRows_eq_entryRows h]

theorem memberRows_append {ms more : List (String × Json)} (h : ∀ m ∈ ms, OneLine m.2)
    (hmore : more ≠ []) :
    memberRows (ms ++ more) = ms.map (memberLine · ++ [',']) ++ memberRows more := by
  induction ms with
  | nil => rfl
  | cons m ms ih =>
    obtain ⟨hm, hms⟩ := List.forall_mem_cons.1 h
    have hcomma : commaBefore (ms ++ more) = [','] := by simp [commaBefore, hmore]
    rw [List.cons_append, memberRows, hm, hcomma, ih hms, List.map_cons, memberLine,
      List.append_assoc, List.singleton_append, List.cons_append]

theorem bare_indent (row : List Char) : bare (indent row) = bare row := by
  simp [bare, indent]

theorem getLast?_lineItems (m : Marks) (items : List Json) :
    (lineItems m items).getLast? = some ']' := by
  induction items with
  | nil => simp [lineItems]
  | cons v items ih =>
    cases items with
    | nil => simp [lineItems]
    | cons w items =>
      rw [lineItems_cons_cons]
      simp [ih]

/-- An array on one line loses the comma behind it, and nothing else. -/
theorem bare_memberLine {m : String × Json} {items : List Json} (hm : m.2 = .arr items)
    (ms : List (String × Json)) : bare (memberLine m ++ commaBefore ms) = memberLine m := by
  have hhead : (memberLine m ++ commaBefore ms).dropWhile (· == ' ') =
      memberLine m ++ commaBefore ms := by
    simp [memberLine, label, quote]
  have hlast : (memberLine m).getLast? = some ']' := by
    rw [memberLine, hm, line, List.getLast?_append, List.getLast?_cons, getLast?_lineItems]
    rfl
  unfold bare
  dsimp only
  rw [hhead, commaBefore]
  split
  · rw [List.append_nil, hlast, if_neg (by decide)]
  · rw [List.getLast?_concat, if_pos rfl, List.dropLast_concat]

theorem map_bare_entryRows {entries : List (String × Json)}
    (h : ∀ m ∈ entries, ∃ items, m.2 = .arr items) :
    (entryRows entries).map bare = entries.map memberLine := by
  induction entries with
  | nil => rfl
  | cons m entries ih =>
    obtain ⟨⟨items, hm⟩, hentries⟩ := List.forall_mem_cons.1 h
    rw [entryRows, List.map_cons, List.map_cons, bare_memberLine hm, ih hentries]

/-- A member on one line is read as the member, its value standing in no other. -/
theorem member_memberLine {room : Nat} {v : Json} (hv : Readable room v) (key : String) :
    member (value room) (memberLine (key, v)) = .ok ((key, v), []) := by
  have hreads := reads_of_spells hv (spells_line Marks.spaced_sound v)
  have hmember := member_of_reads key hreads gap_nil (gap_replicate 1) delimited_nil
  simpa [memberLine, label] using hmember

end Beamline.Json

import Beamline.Deck.Word
import Beamline.Proofs.Deck.Recasing
import Beamline.Proofs.Text.Alike

/-!
# Words in other letters

* `Tracks S` : a relation between texts that tells apart at most the case of letters and is kept
  behind all characters but quotation marks;
* `SameUpper`, `SameQuoted` : texts in other letters, and those with the same quotations;
* `Tracks.char`, `spaced`, `name`, `magnitude` : what is read alike of such texts.
-/

namespace Beamline.Deck

open Text

variable {α β : Type} {S : List Char → List Char → Prop} {cs ds : List Char}

/-- A relation between texts that tells apart at most the case of letters, and is kept behind all
characters but quotation marks. -/
structure Tracks (S : List Char → List Char → Prop) : Prop where
  upper : ∀ {cs ds}, S cs ds → upper cs = upper ds
  tail : ∀ {c d cs ds}, S (c :: cs) (d :: ds) → isQuote c = false → S cs ds

/-! ## Characters of words -/

/-- A test that quotation marks do not pass. -/
theorem isQuote_eq_false {p : Char → Bool} (hdouble : p '"' = false) (hsingle : p '\'' = false)
    (c : Char) (hc : p c) : isQuote c = false := by
  refine Bool.eq_false_of_not_eq_true fun hquote => ?_
  simp only [isQuote, Bool.or_eq_true, beq_iff_eq] at hquote
  rcases hquote with rfl | rfl
  · rw [hdouble] at hc
    cases hc
  · rw [hsingle] at hc
    cases hc

theorem caseless_isNameStart : Caseless Word.isNameStart := by
  intro c
  have hline : (c.toUpper == '_') = (c == '_') := caseless_beq rfl c
  rw [Word.isNameStart, Word.isNameStart, caseless_isAlpha, hline]

theorem caseless_isNameRest : Caseless Word.isNameRest := by
  intro c
  have hmark {k : Char} (hk : k.isAlpha = false) : (c.toUpper == k) = (c == k) := caseless_beq hk c
  rw [Word.isNameRest, Word.isNameRest, caseless_isAlphanum, hmark rfl, hmark rfl, hmark rfl]

/-! ## The relations -/

/-- The same text, but for the case of its letters. -/
def SameUpper (cs ds : List Char) : Prop :=
  upper cs = upper ds

theorem tracks_sameUpper : Tracks SameUpper :=
  ⟨id, fun h _ => (List.cons.inj h).2⟩

/-- The same text, but for the case of the letters that are not in quotation marks. -/
structure SameQuoted (cs ds : List Char) : Prop where
  upper : upper cs = upper ds
  quoted : quotedFrom none cs = quotedFrom none ds

theorem quotedFrom_cons {c : Char} (hc : isQuote c = false) (cs : List Char) :
    quotedFrom none (c :: cs) = quotedFrom none cs := by
  rw [quotedFrom, hc]
  rfl

theorem tracks_sameQuoted : Tracks SameQuoted where
  upper := SameQuoted.upper
  tail := by
    intro c d cs ds h hc
    obtain ⟨hupper, hquoted⟩ := h
    obtain ⟨hcd, hupper⟩ := List.cons.inj hupper
    rw [quotedFrom_cons hc, quotedFrom_cons (caseless_isQuote.congr hcd ▸ hc)] at hquoted
    exact ⟨hupper, hquoted⟩

/-! ## Numbers, part by part -/

/-- The digits before a point and those behind it, if there is a point. -/
def fraction (whole : List Char) : Scanner (List Char × List Char)
  | '.' :: rest => some ((whole, rest.takeWhile Char.isDigit), rest.dropWhile Char.isDigit)
  | rest => some ((whole, []), rest)

/-- The digits behind a point that comes first. -/
def leadingPoint : Scanner (List Char × List Char)
  | '.' :: rest => (Scanner.digits rest).map fun (fraction, rest) => (([], fraction), rest)
  | _ => none

theorem mantissa_eq (cs : List Char) : Word.mantissa cs =
    match Scanner.digits cs with
    | some (whole, rest) => fraction whole rest
    | none => leadingPoint cs := by
  unfold Word.mantissa
  cases Scanner.digits cs with
  | none => rfl
  | some parts =>
    obtain ⟨whole, rest⟩ := parts
    cases rest with
    | nil => rfl
    | cons c rest => by_cases hpoint : c = '.' <;> simp [fraction, hpoint]

/-- The digits of an exponent, perhaps with a plus sign. -/
def unsignedDigits : Scanner Int
  | '+' :: cs => (Scanner.digits cs).map fun (ds, cs) => (Decimal.natOfDigits ds, cs)
  | cs => (Scanner.digits cs).map fun (ds, cs) => (Decimal.natOfDigits ds, cs)

/-- The digits of an exponent, perhaps with a sign. -/
def signedDigits : Scanner Int
  | '-' :: cs => (Scanner.digits cs).map fun (ds, cs) => (-(Decimal.natOfDigits ds : Int), cs)
  | cs => unsignedDigits cs

theorem exponent_cons (c : Char) (cs : List Char) :
    Word.exponent (c :: cs) = if c = 'e' || c = 'E' then signedDigits cs else none := by
  cases cs with
  | nil => rfl
  | cons d cs =>
    by_cases hminus : d = '-'
    · subst hminus
      rfl
    · by_cases hplus : d = '+' <;> simp [Word.exponent, signedDigits, unsignedDigits, hminus, hplus]

namespace Tracks

theorem eq_nil (hS : Tracks S) (h : S [] ds) : ds = [] :=
  List.map_eq_nil_iff.1 (hS.upper h).symm

theorem head (hS : Tracks S) {c d : Char} (h : S (c :: cs) (d :: ds)) : c.toUpper = d.toUpper :=
  (List.cons.inj (hS.upper h)).1

/-- A character that is no letter comes first in both texts or in neither. -/
theorem exists_cons (hS : Tracks S) {k : Char} (hk : k.isAlpha = false) (h : S cs ds) :
    (∃ rest, cs = k :: rest) ↔ ∃ rest, ds = k :: rest := by
  have hstart (cs : List Char) : (∃ rest, Text.upper cs = k :: rest) ↔ ∃ rest, cs = k :: rest := by
    simp only [upper_eq_cons hk]
    exact ⟨fun ⟨_, rest, heq, _⟩ => ⟨rest, heq⟩, fun ⟨rest, heq⟩ => ⟨_, rest, heq, rfl⟩⟩
  rw [← hstart cs, hS.upper h, hstart]

/-- A scanner that fails at the end of a text, and on other texts reads alike. -/
theorem ofCons (hS : Tracks S) {R : α → α → Prop} {p : Scanner α} (hnil : p [] = none)
    (hcons : ∀ c d cs ds, c.toUpper = d.toUpper → S (c :: cs) (d :: ds) →
      Agree R S (p (c :: cs)) (p (d :: ds))) : Alike S S R p := by
  intro cs ds h
  cases cs with
  | nil =>
    obtain rfl := hS.eq_nil h
    rw [hnil]
    exact .fail
  | cons c cs =>
    cases ds with
    | nil => cases hS.upper h
    | cons d ds => exact hcons c d cs ds (hS.head h) h

/-- A scanner that fails on letters, and on texts with the same first character reads alike. -/
theorem ofMarks (hS : Tracks S) {R : α → α → Prop} {p : Scanner α} (hnil : p [] = none)
    (hletter : ∀ c cs, c.isAlpha → p (c :: cs) = none)
    (hmark : ∀ c cs ds, S (c :: cs) (c :: ds) → Agree R S (p (c :: cs)) (p (c :: ds))) :
    Alike S S R p := by
  refine hS.ofCons hnil fun c d cs ds hcd h => ?_
  by_cases hc : c.isAlpha
  · rw [hletter c cs hc, hletter d ds (caseless_isAlpha.congr hcd ▸ hc)]
    exact .fail
  · obtain rfl := eq_of_toUpper_eq (Bool.eq_false_of_not_eq_true hc) hcd
    exact hmark d cs ds h

/-- A scanner that goes on with `p` behind the character `k`, and with `q` on other texts. -/
theorem ofMark (hS : Tracks S) {k : Char} (hk : k.isAlpha = false) (hquote : isQuote k = false)
    {R : α → α → Prop} {p q r : Scanner α} (hp : Alike S S R p) (hq : Alike S S R q)
    (hmark : ∀ rest, r (k :: rest) = p rest)
    (hother : ∀ cs, (∀ rest, cs ≠ k :: rest) → r cs = q cs) : Alike S S R r := by
  intro cs ds h
  by_cases hcs : ∃ rest, cs = k :: rest
  · obtain ⟨rest, rfl⟩ := hcs
    obtain ⟨rest', rfl⟩ := (hS.exists_cons hk h).1 ⟨rest, rfl⟩
    rw [hmark, hmark]
    exact hp (hS.tail h hquote)
  · have hds := mt (hS.exists_cons hk h).2 hcs
    rw [hother cs fun rest hrest => hcs ⟨rest, hrest⟩,
      hother ds fun rest hrest => hds ⟨rest, hrest⟩]
    exact hq h

theorem dropWhile (hS : Tracks S) {p : Char → Bool} (hp : Caseless p)
    (hquote : ∀ c, p c → isQuote c = false) : ∀ {cs ds : List Char}, S cs ds →
    S (cs.dropWhile p) (ds.dropWhile p)
  | [], ds, h => by
    obtain rfl := hS.eq_nil h
    exact h
  | c :: cs, [], h => by cases hS.upper h
  | c :: cs, d :: ds, h => by
    rw [List.dropWhile_cons, List.dropWhile_cons, ← hp.congr (hS.head h)]
    split
    · rename_i hc
      exact hS.dropWhile hp hquote (hS.tail h (hquote c hc))
    · exact h

/-- Characters that are no letters are the same in both texts. -/
theorem takeWhile_eq (hS : Tracks S) {p : Char → Bool} (hp : ∀ c : Char, c.isAlpha → p c = false)
    (h : S cs ds) : cs.takeWhile p = ds.takeWhile p := by
  have hupper := takeWhile_upper (caseless_of_letters hp) cs
  rw [hS.upper h, takeWhile_upper (caseless_of_letters hp)] at hupper
  have hself (cs : List Char) : Text.upper (cs.takeWhile p) = cs.takeWhile p := by
    refine (List.map_congr_left fun c hc => ?_).trans (List.map_id _)
    refine (toUpper_eq_iff (Bool.eq_false_of_not_eq_true fun halpha => ?_)).2 rfl
    have hpc := List.mem_takeWhile_imp hc
    rw [hp c halpha] at hpc
    cases hpc
  rw [← hself cs, ← hself ds, hupper]

/-! ## Characters -/

theorem skipGap (hS : Tracks S) (h : S cs ds) : S (skipGap cs) (skipGap ds) :=
  hS.dropWhile caseless_isGap (isQuote_eq_false rfl rfl) h

theorem spaced {T : List Char → List Char → Prop} {R : α → α → Prop} {p : Scanner α}
    (hS : Tracks S) (hT : Tracks T) (hp : Alike S T R p) : Alike S T R (Scanner.spaced p) := by
  intro cs ds h
  have hread := hp (hS.skipGap h)
  unfold Scanner.spaced
  generalize p (Text.skipGap cs) = x, p (Text.skipGap ds) = y at hread ⊢
  cases hread with
  | fail => exact .fail
  | read hab hrest => exact .read hab (hT.skipGap hrest)

theorem char (hS : Tracks S) {k : Char} (hk : k.isAlpha = false) (hquote : isQuote k = false) :
    Alike S S Eq (Scanner.char k) := by
  refine hS.ofCons rfl fun c d cs ds hcd h => ?_
  have hkey : c = k ↔ d = k := by
    rw [← toUpper_eq_iff hk, hcd, toUpper_eq_iff hk]
  rw [Scanner.char, Scanner.char]
  by_cases hc : c = k
  · rw [if_pos hc, if_pos (hkey.1 hc)]
    exact .read rfl (hS.tail h (hc ▸ hquote))
  · rw [if_neg hc, if_neg (mt hkey.2 hc)]
    exact .fail

theorem mark (hS : Tracks S) {k : Char} (hk : k.isAlpha = false) (hquote : isQuote k = false) :
    Alike S S Eq (Scanner.mark k) :=
  hS.spaced hS (hS.char hk hquote)

theorem dropDigits (hS : Tracks S) (h : S cs ds) :
    S (cs.dropWhile Char.isDigit) (ds.dropWhile Char.isDigit) :=
  hS.dropWhile caseless_isDigit (isQuote_eq_false rfl rfl) h

theorem takeDigits (hS : Tracks S) (h : S cs ds) :
    cs.takeWhile Char.isDigit = ds.takeWhile Char.isDigit :=
  hS.takeWhile_eq (fun _ => isDigit_of_isAlpha) h

theorem digits (hS : Tracks S) : Alike S S Eq Scanner.digits := by
  intro cs ds h
  unfold Scanner.digits
  rw [hS.takeDigits h]
  dsimp only
  split
  · exact .fail
  · exact .read rfl (hS.dropDigits h)

/-! ## Words -/

theorem name (hS : Tracks S) : Alike S S Eq Word.name := by
  refine hS.ofCons rfl fun c d cs ds hcd h => ?_
  have hstart : Word.isNameStart c = Word.isNameStart d := caseless_isNameStart.congr hcd
  rw [Word.name, Word.name, hstart]
  split
  · rename_i hd
    have hrest := hS.tail h (isQuote_eq_false rfl rfl c (hstart.trans hd))
    refine .read ?_ (hS.dropWhile caseless_isNameRest (isQuote_eq_false rfl rfl) hrest)
    rw [upper_cons, upper_cons, hcd, ← takeWhile_upper caseless_isNameRest,
      ← takeWhile_upper caseless_isNameRest, hS.upper hrest]
  · exact .fail

theorem fraction (hS : Tracks S) (whole : List Char) : Alike S S Eq (fraction whole) := by
  refine hS.ofMark (k := '.') rfl rfl
    (p := fun rest => some ((whole, rest.takeWhile Char.isDigit), rest.dropWhile Char.isDigit))
    (q := fun rest => some ((whole, []), rest))
    (fun _ _ h => .read (by rw [hS.takeDigits h]) (hS.dropDigits h)) (fun _ _ h => .read rfl h)
    (fun _ => rfl) fun cs hcs => ?_
  unfold Deck.fraction
  split
  · exact absurd rfl (hcs _)
  · rfl

theorem leadingPoint (hS : Tracks S) : Alike S S Eq leadingPoint := by
  refine hS.ofMark (k := '.') rfl rfl (q := fun _ => none)
    (hS.digits.map fun fraction => ([], fraction)) (fun _ _ _ => .fail) (fun _ => rfl)
    fun cs hcs => ?_
  unfold Deck.leadingPoint
  split
  · exact absurd rfl (hcs _)
  · rfl

theorem mantissa (hS : Tracks S) : Alike S S Eq Word.mantissa := by
  intro cs ds h
  have hread := hS.digits h
  rw [mantissa_eq, mantissa_eq]
  generalize Scanner.digits cs = x, Scanner.digits ds = y at hread ⊢
  cases hread with
  | fail => exact hS.leadingPoint h
  | read hwhole hrest => exact hwhole ▸ hS.fraction _ hrest

theorem signedDigits (hS : Tracks S) : Alike S S Eq signedDigits := by
  have hdigits (f : Nat → Int) : Alike S S Eq fun cs =>
      (Scanner.digits cs).map fun (ds, cs) => (f (Decimal.natOfDigits ds), cs) :=
    hS.digits.map fun ds => f (Decimal.natOfDigits ds)
  have hplus : Alike S S Eq unsignedDigits := by
    refine hS.ofMark (k := '+') rfl rfl (hdigits Nat.cast) (hdigits Nat.cast) (fun _ => rfl)
      fun cs hcs => ?_
    unfold Deck.unsignedDigits
    split
    · exact absurd rfl (hcs _)
    · rfl
  refine hS.ofMark (k := '-') rfl rfl (hdigits (-·)) hplus (fun _ => rfl) fun cs hcs => ?_
  unfold Deck.signedDigits
  split
  · exact absurd rfl (hcs _)
  · rfl

theorem exponent (hS : Tracks S) : Alike S S Eq Word.exponent := by
  refine hS.ofCons rfl fun c d cs ds hcd h => ?_
  have hmark : (c = 'e' || c = 'E') = (d = 'e' || d = 'E') :=
    (caseless_letter (k := 'e') rfl).congr hcd
  rw [exponent_cons, exponent_cons, hmark]
  split
  · rename_i hd
    have hquote := isQuote_eq_false (p := fun c => c = 'e' || c = 'E') rfl rfl c (hmark.trans hd)
    exact hS.signedDigits (hS.tail h hquote)
  · exact .fail

theorem magnitude (hS : Tracks S) : Alike S S Eq Word.magnitude := by
  intro cs ds h
  refine hS.mantissa.bind h fun parts cs ds h => ?_
  have hexponent := hS.exponent.opt h
  exact .read (congrArg (fun e => (Decimal.ofParts parts.1 parts.2 (e.getD 0)).toFloat)
    hexponent.1) hexponent.2

end Tracks

/-! ## Quotations -/

theorem caseless_bne {k : Char} (hk : k.isAlpha = false) : Caseless (· != k) :=
  fun c => congrArg (!·) (caseless_beq hk c)

/-- Whether a quotation ends does not depend on the case of its letters. -/
theorem alike_quotedBy {q : Char} (hq : isQuote q) :
    Alike SameUpper SameUpper (fun s t => upper s.toList = upper t.toList) (Word.quotedBy q) := by
  have halpha := isAlpha_of_isQuote hq
  refine tracks_sameUpper.ofCons rfl fun c d cs ds hcd h => ?_
  have hmark : c = q ↔ d = q := by
    rw [← toUpper_eq_iff halpha, hcd, toUpper_eq_iff halpha]
  have hrest : upper cs = upper ds := (List.cons.inj h).2
  have hbody := takeWhile_upper (caseless_bne halpha) cs
  have hend := dropWhile_upper (caseless_bne halpha) cs
  rw [hrest, takeWhile_upper (caseless_bne halpha)] at hbody
  rw [hrest, dropWhile_upper (caseless_bne halpha)] at hend
  rw [Word.quotedBy, Word.quotedBy]
  by_cases hc : c = q
  · rw [if_pos hc, if_pos (hmark.1 hc)]
    generalize cs.dropWhile (· != q) = x, ds.dropWhile (· != q) = y at hend ⊢
    cases x with
    | nil =>
      cases List.map_eq_nil_iff.1 hend
      exact .fail
    | cons a x =>
      cases y with
      | nil => cases hend
      | cons b y =>
        refine .read ?_ (List.cons.inj hend).2.symm
        rw [String.toList_ofList, String.toList_ofList, hbody]
  · rw [if_neg hc, if_neg (mt hmark.2 hc)]
    exact .fail

theorem alike_quoted :
    Alike SameUpper SameUpper (fun s t => upper s.toList = upper t.toList) Word.quoted :=
  (alike_quotedBy rfl).orElse (alike_quotedBy rfl)

/-- The characters up to the mark that ends a quotation stand in it. -/
theorem quotedFrom_some (q : Char) (cs : List Char) : quotedFrom (some q) cs =
    cs.takeWhile (· != q) ++ quotedFrom none (cs.dropWhile (· != q)).tail := by
  induction cs with
  | nil => rfl
  | cons c cs ih =>
    rw [quotedFrom]
    by_cases hc : c = q
    · simp [hc]
    · simp [hc, ih]

theorem quotedFrom_of_quotedBy {q : Char} (hq : isQuote q) {s : String} {rest : List Char}
    (h : Word.quotedBy q cs = some (s, rest)) :
    quotedFrom none cs = s.toList ++ quotedFrom none rest := by
  cases cs with
  | nil => cases h
  | cons c cs =>
    unfold Word.quotedBy at h
    dsimp only at h
    split at h
    · rename_i hc
      subst hc
      split at h
      · cases h
      · rename_i hend
        cases h
        rw [quotedFrom, if_pos hq, quotedFrom_some, hend, String.toList_ofList]
        rfl
    · cases h

theorem quotedFrom_of_quoted {s : String} {rest : List Char}
    (h : Word.quoted cs = some (s, rest)) :
    quotedFrom none cs = s.toList ++ quotedFrom none rest := by
  unfold Word.quoted Scanner.orElse at h
  split at h
  · rename_i hdouble
    cases h
    exact quotedFrom_of_quotedBy rfl hdouble
  · exact quotedFrom_of_quotedBy rfl h

/-- A quotation that is read is the same in both texts. -/
theorem alike_quoted_eq : Alike SameQuoted SameQuoted Eq Word.quoted := by
  intro cs ds h
  have hread := alike_quoted h.upper
  have hcs := @quotedFrom_of_quoted cs
  have hds := @quotedFrom_of_quoted ds
  generalize Word.quoted cs = x, Word.quoted ds = y at hread hcs hds ⊢
  cases hread with
  | fail => exact .fail
  | read hst hrest =>
    have hquoted := h.quoted
    rw [hcs rfl, hds rfl] at hquoted
    have hlength := congrArg List.length hst
    rw [upper, upper, List.length_map, List.length_map] at hlength
    obtain ⟨hst, hquoted⟩ := List.append_inj hquoted hlength
    exact .read (String.toList_inj.1 hst) ⟨hrest, hquoted⟩

end Beamline.Deck

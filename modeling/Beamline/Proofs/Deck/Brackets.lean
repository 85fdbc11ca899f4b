import Beamline.Proofs.Deck.RecasedWords

/-!
# Brackets in what is read

`bracketDepth` counts brackets on a text, with a quotation mark to look out for, before anything of
the text is read. What a scanner reads takes the same brackets in pairs.

* `Nests m cs rest` : the text from `cs` up to `rest` closes its brackets, which nest `m` deep;
* `Nested R p` : so does all that `p` reads, as deep as `R` says of the thing read;
* `Nested.between`, `many`, `sepBy` : the same of scanners made from others;
* `Flat p` : what `p` reads has no brackets, as the words of a clause (`flat_name`,
  `flat_magnitude`, `flat_quoted`).
-/

namespace Beamline.Deck

open Text

/-! ## Brackets between two places of a text -/

/-- How far brackets that nest `m` deep reach if they stand in `depth` others. -/
def reach (depth m : Nat) : Nat :=
  if m = 0 then 0 else depth + m

theorem max_reach (depth m n : Nat) :
    max (reach depth m) (reach depth n) = reach depth (max m n) := by
  unfold reach
  split <;> split <;> split <;> omega

theorem reach_succ (depth m : Nat) :
    max (depth + 1) (reach (depth + 1) m) = reach depth (m + 1) := by
  unfold reach
  split <;> split <;> omega

/-- The text from `cs` up to `rest` closes all its brackets and quotations, and brackets nest `m`
deep in it. -/
def Nests (m : Nat) (cs rest : List Char) : Prop :=
  ∀ depth, bracketDepthFrom none depth cs =
    max (reach depth m) (bracketDepthFrom none depth rest)

section Nests

variable {m n : Nat} {cs mid rest : List Char}

theorem nests_refl (cs : List Char) : Nests 0 cs cs :=
  fun _ => (Nat.zero_max _).symm

theorem Nests.trans (h : Nests m cs mid) (h' : Nests n mid rest) : Nests (max m n) cs rest := by
  intro depth
  rw [h depth, h' depth, ← Nat.max_assoc, max_reach]

theorem Nests.eq (h : Nests 0 cs rest) (depth : Nat) :
    bracketDepthFrom none depth cs = bracketDepthFrom none depth rest :=
  (h depth).trans (Nat.zero_max _)

theorem Nests.trans_flat (h : Nests m cs mid) (h' : Nests 0 mid rest) : Nests m cs rest := by
  have := h.trans h'
  rwa [Nat.max_zero] at this

theorem Nests.flat_trans (h : Nests 0 cs mid) (h' : Nests m mid rest) : Nests m cs rest := by
  have := h.trans h'
  rwa [Nat.zero_max] at this

/-- Neither a bracket nor a quotation mark. -/
def isInert (c : Char) : Bool :=
  !(isQuote c || c == '(' || c == '{' || c == ')' || c == '}')

/-- A test that brackets and quotation marks do not pass is passed by inert characters only. -/
theorem isInert_of_test {p : Char → Bool} (hp : ['"', '\'', '(', '{', ')', '}'].any p = false)
    (c : Char) (hc : p c) : isInert c := by
  have hne : ∀ d ∈ ['"', '\'', '(', '{', ')', '}'], c ≠ d := fun d hd =>
    ne_of_test hc (Bool.eq_false_of_not_eq_true (List.any_eq_false.1 hp d hd))
  simpa [isInert, isQuote, and_assoc] using hne

theorem nests_cons {c : Char} (hc : isInert c) (cs : List Char) : Nests 0 (c :: cs) cs := by
  intro depth
  simp only [isInert, Bool.not_eq_true', Bool.or_eq_false_iff, beq_eq_false_iff_ne] at hc
  obtain ⟨⟨⟨⟨hquote, hround⟩, hcurly⟩, hround'⟩, hcurly'⟩ := hc
  rw [reach, if_pos rfl, Nat.zero_max, bracketDepthFrom]
  simp [hquote, hround, hcurly, hround', hcurly']

theorem nests_dropWhile {p : Char → Bool} (hp : ∀ c, p c → isInert c) (cs : List Char) :
    Nests 0 cs (cs.dropWhile p) := by
  induction cs with
  | nil => exact nests_refl []
  | cons c cs ih =>
    by_cases hc : p c
    · rw [List.dropWhile_cons_of_pos hc]
      exact (nests_cons (hp c hc) cs).trans_flat ih
    · rw [List.dropWhile_cons_of_neg hc]
      exact nests_refl (c :: cs)

theorem nests_skipGap (cs : List Char) : Nests 0 cs (skipGap cs) :=
  nests_dropWhile (isInert_of_test (p := isGap) rfl) cs

theorem Nests.bracketDepth_eq (h : Nests m cs rest) (hrest : skipGap rest = []) :
    bracketDepth cs = m := by
  have hnone := (nests_skipGap rest).eq 0
  rw [hrest] at hnone
  rw [bracketDepth, h 0, hnone, bracketDepthFrom, Nat.max_zero, reach]
  split <;> omega

/-- A quotation up to its mark holds no bracket that counts. -/
theorem bracketDepthFrom_some (q : Char) (depth : Nat) (cs : List Char) :
    bracketDepthFrom (some q) depth cs =
      bracketDepthFrom none depth (cs.dropWhile (· != q)).tail := by
  induction cs with
  | nil => rfl
  | cons c cs ih =>
    rw [bracketDepthFrom]
    by_cases hc : c = q
    · simp [hc]
    · simp [hc, ih]

/-- The text is a bracket that opens and `mid` what stands in it. -/
def OpensTo (cs mid : List Char) : Prop :=
  ∀ depth, bracketDepthFrom none depth cs = max (depth + 1) (bracketDepthFrom none (depth + 1) mid)

/-- The text is a bracket that closes, and `rest` what stands behind it. -/
def ClosesTo (mid rest : List Char) : Prop :=
  ∀ depth, bracketDepthFrom none (depth + 1) mid = bracketDepthFrom none depth rest

/-- Brackets around brackets that nest `m` deep nest one deeper. -/
theorem nests_bracketed {inner behind : List Char} (hopen : OpensTo cs inner)
    (h : Nests m inner behind) (hclose : ClosesTo behind rest) : Nests (m + 1) cs rest := by
  intro depth
  rw [hopen depth, h (depth + 1), hclose depth, ← Nat.max_assoc, reach_succ]

end Nests

/-! ## Scanners -/

section Scanners

variable {α β : Type} {R : α → Nat → Prop} {Q : β → Nat → Prop} {L : List α → Nat → Prop}
  {p p' : Scanner α} {q : Scanner β} {a : α} {b : β} {cs mid rest : List Char}

/-- What `p` reads closes its brackets, and they nest as deep as `R` says of it. -/
def Nested (R : α → Nat → Prop) (p : Scanner α) : Prop :=
  ∀ ⦃cs a rest⦄, p cs = some (a, rest) → ∃ m, R a m ∧ Nests m cs rest

/-- What `p` reads has no brackets. -/
abbrev Flat (p : Scanner α) : Prop :=
  Nested (fun _ m => m = 0) p

theorem forall_cons_max (hmono : ∀ {a m n}, R a m → m ≤ n → R a n) (a : α) (as : List α) (m n : Nat)
    (ha : R a m) (has : ∀ x ∈ as, R x n) : ∀ x ∈ a :: as, R x (max m n) :=
  List.forall_mem_cons.2 ⟨hmono ha (Nat.le_max_left m n),
    fun x hx => hmono (has x hx) (Nat.le_max_right m n)⟩

namespace Nested

theorem imp {S : α → Nat → Prop} (hp : Nested R p) (h : ∀ a m, R a m → S a m) :
    Nested S p := by
  intro cs a rest hread
  obtain ⟨m, hR, hnests⟩ := hp hread
  exact ⟨m, h a m hR, hnests⟩

theorem bind {f : α × List Char → Option (β × List Char)} (hp : Nested R p)
    (h : (p cs >>= f) = some (b, rest)) :
    ∃ a mid m, R a m ∧ Nests m cs mid ∧ f (a, mid) = some (b, rest) := by
  obtain ⟨⟨a, mid⟩, hread, h⟩ := Option.bind_eq_some_iff.1 h
  obtain ⟨m, hR, hnests⟩ := hp hread
  exact ⟨a, mid, m, hR, hnests, h⟩

theorem map {f : α → β} (hp : Nested R p) (h : ∀ a m, R a m → Q (f a) m) :
    Nested Q fun cs => (p cs).map fun (a, cs) => (f a, cs) := by
  intro cs b rest hmap
  obtain ⟨⟨a, mid⟩, hread, heq⟩ := Option.map_eq_some_iff.1 hmap
  cases heq
  obtain ⟨m, hR, hnests⟩ := hp hread
  exact ⟨m, h a m hR, hnests⟩

theorem spaced (hp : Nested R p) : Nested R (Scanner.spaced p) := by
  intro cs a rest h
  obtain ⟨⟨a, mid⟩, hread, heq⟩ := Option.map_eq_some_iff.1 h
  cases heq
  obtain ⟨m, hR, hnests⟩ := hp hread
  exact ⟨m, hR, ((nests_skipGap cs).flat_trans hnests).trans_flat (nests_skipGap mid)⟩

theorem orElse (hp : Nested R p) (hp' : Nested R p') : Nested R (Scanner.orElse p p') := by
  intro cs a rest h
  unfold Scanner.orElse at h
  split at h
  · rename_i hread
    exact hp (hread.trans h)
  · exact hp' h

theorem after (hp : Nested R p) (hq : Flat q) : Nested R (Scanner.after q p) := by
  intro cs a rest h
  obtain ⟨_, mid, _, rfl, hnests, h⟩ := hq.bind h
  obtain ⟨m, hR, hnests'⟩ := hp h
  exact ⟨m, hR, hnests.flat_trans hnests'⟩

theorem before (hp : Nested R p) (hq : Flat q) : Nested R (Scanner.before p q) := by
  intro cs a rest h
  obtain ⟨a, mid, m, hR, hnests, h⟩ := hp.bind h
  obtain ⟨_, _, _, rfl, hnests', h⟩ := hq.bind h
  cases h
  exact ⟨m, hR, hnests.trans_flat hnests'⟩

/-- What stands in brackets nests one deeper with them. -/
theorem between {o c : Scanner β} (hp : Nested R p)
    (ho : ∀ {cs b mid}, o cs = some (b, mid) → OpensTo cs mid)
    (hc : ∀ {cs b mid}, c cs = some (b, mid) → ClosesTo cs mid)
    {S : α → Nat → Prop} (h : ∀ a m, R a m → S a (m + 1)) :
    Nested S (Scanner.between o p c) := by
  intro cs a rest hread
  obtain ⟨⟨_, inner⟩, hopen, hread⟩ := Option.bind_eq_some_iff.1 hread
  obtain ⟨a, behind, m, hR, hnests, hread⟩ := hp.bind hread
  obtain ⟨⟨_, mid⟩, hclose, heq⟩ := Option.bind_eq_some_iff.1 hread
  cases heq
  exact ⟨m + 1, h a m hR, nests_bracketed (ho hopen) hnests (hc hclose)⟩

section Lists

variable (hp : Nested R p) (hnil : L [] 0)
  (hcons : ∀ a as m n, R a m → L as n → L (a :: as) (max m n))
include hp hnil hcons

/-- What is read again and again nests as deep as the deepest of it. -/
theorem many (fuel : Nat) (cs : List Char) :
    ∃ m, L (Scanner.many p fuel cs).1 m ∧ Nests m cs (Scanner.many p fuel cs).2 := by
  induction fuel generalizing cs with
  | zero => exact ⟨0, hnil, nests_refl cs⟩
  | succ fuel ih =>
    rw [Scanner.many]
    split
    · exact ⟨0, hnil, nests_refl cs⟩
    · rename_i a mid hread
      obtain ⟨m, hR, hnests⟩ := hp hread
      obtain ⟨n, hL, hnests'⟩ := ih mid
      exact ⟨max m n, hcons _ _ _ _ hR hL, hnests.trans hnests'⟩

theorem sepBy1 (hq : Flat q) (fuel : Nat) : Nested L (Scanner.sepBy1 p q fuel) := by
  intro cs as rest h
  obtain ⟨a, mid, m, hR, hnests, h⟩ := hp.bind h
  obtain ⟨n, hL, hnests'⟩ := (hp.after hq).many hnil hcons fuel mid
  cases h
  exact ⟨max m n, hcons _ _ _ _ hR hL, hnests.trans hnests'⟩

theorem sepBy (hq : Flat q) (fuel : Nat) : Nested L (Scanner.sepBy p q fuel) := by
  intro cs as rest h
  unfold Scanner.sepBy at h
  split at h
  · rename_i hread
    exact hp.sepBy1 hnil hcons hq fuel (hread.trans h)
  · cases h
    exact ⟨0, hnil, nests_refl cs⟩

end Lists

/-- What bounds a thing bounds it too if the text behind nests deeper. -/
theorem many_forall (hp : Nested R p) (hmono : ∀ {a m n}, R a m → m ≤ n → R a n) (fuel : Nat)
    (cs : List Char) : ∃ m, (∀ a ∈ (Scanner.many p fuel cs).1, R a m) ∧
      Nests m cs (Scanner.many p fuel cs).2 :=
  hp.many (L := fun as m => ∀ a ∈ as, R a m) nofun (forall_cons_max hmono) fuel cs

end Nested

theorem Flat.of_nests (h : ∀ {cs a rest}, p cs = some (a, rest) → Nests 0 cs rest) : Flat p :=
  fun _ _ _ hread => ⟨0, rfl, h hread⟩

theorem Flat.nests (hp : Flat p) (h : p cs = some (a, rest)) : Nests 0 cs rest := by
  obtain ⟨_, rfl, hnests⟩ := hp h
  exact hnests

theorem Flat.nested (hp : Flat p) (hR : ∀ a, R a 0) : Nested R p :=
  hp.imp fun a _ hm => hm ▸ hR a

theorem Flat.spaced (hp : Flat p) : Flat (Scanner.spaced p) :=
  Nested.spaced hp

theorem Flat.opt (hp : Flat p) (cs : List Char) : Nests 0 cs (Scanner.opt p cs).2 := by
  unfold Scanner.opt
  split
  · rename_i hread
    exact hp.nests hread
  · exact nests_refl cs

theorem Flat.many (hp : Flat p) (fuel : Nat) (cs : List Char) :
    Nests 0 cs (Scanner.many p fuel cs).2 := by
  obtain ⟨_, rfl, hnests⟩ := Nested.many (L := fun _ m => m = 0) hp rfl
    (fun _ _ _ _ hm hn => by rw [hm, hn, Nat.max_zero]) fuel cs
  exact hnests

/-- A scanner that takes one character and goes on with another. -/
theorem Flat.of_cons (hnil : p [] = none)
    (h : ∀ {c cs a rest}, p (c :: cs) = some (a, rest) → isInert c ∧ Nests 0 cs rest) : Flat p := by
  refine .of_nests fun {cs a rest} hread => ?_
  cases cs with
  | nil =>
    rw [hnil] at hread
    cases hread
  | cons c cs =>
    obtain ⟨hc, hnests⟩ := h hread
    exact (nests_cons hc cs).trans_flat hnests

theorem char_eq_some {c : Char} {u : Unit} (h : Scanner.char c cs = some (u, rest)) :
    cs = c :: rest := by
  cases cs with
  | nil => cases h
  | cons d cs =>
    rw [Scanner.char] at h
    split at h
    · rename_i hd
      cases h
      rw [hd]
    · cases h

theorem flat_char {c : Char} (hc : isInert c) : Flat (Scanner.char c) :=
  .of_nests fun h => char_eq_some h ▸ nests_cons hc _

theorem flat_mark {c : Char} (hc : isInert c) : Flat (Scanner.mark c) :=
  (flat_char hc).spaced

/-! ## Marks of brackets -/

theorem opensTo_char {c : Char} (hc : c = '(' ∨ c = '{') {u : Unit}
    (h : Scanner.char c cs = some (u, mid)) : OpensTo cs mid := by
  intro depth
  rw [char_eq_some h]
  rcases hc with rfl | rfl <;> rfl

theorem closesTo_char {c : Char} (hc : c = ')' ∨ c = '}') {u : Unit}
    (h : Scanner.char c cs = some (u, rest)) : ClosesTo cs rest := by
  intro depth
  rw [char_eq_some h]
  rcases hc with rfl | rfl <;> rfl

theorem opensTo_mark {c : Char} (hc : c = '(' ∨ c = '{') {u : Unit}
    (h : Scanner.mark c cs = some (u, rest)) : OpensTo cs rest := by
  obtain ⟨⟨_, mid⟩, hread, heq⟩ := Option.map_eq_some_iff.1 h
  cases heq
  intro depth
  rw [(nests_skipGap cs).eq, opensTo_char hc hread depth, (nests_skipGap mid).eq]

theorem closesTo_mark {c : Char} (hc : c = ')' ∨ c = '}') {u : Unit}
    (h : Scanner.mark c cs = some (u, rest)) : ClosesTo cs rest := by
  obtain ⟨⟨_, mid⟩, hread, heq⟩ := Option.map_eq_some_iff.1 h
  cases heq
  intro depth
  rw [(nests_skipGap cs).eq, closesTo_char hc hread depth, (nests_skipGap mid).eq]

end Scanners

/-! ## Words -/

theorem flat_digits : Flat Scanner.digits := by
  refine .of_nests fun {cs ds rest} h => ?_
  unfold Scanner.digits at h
  dsimp only at h
  split at h
  · cases h
  · cases h
    exact nests_dropWhile (isInert_of_test rfl) cs

theorem flat_name : Flat Word.name := by
  refine .of_cons rfl fun {c cs s rest} h => ?_
  rw [Word.name] at h
  split at h
  · rename_i hc
    cases h
    exact ⟨isInert_of_test (p := Word.isNameStart) rfl c hc,
      nests_dropWhile (isInert_of_test (p := Word.isNameRest) rfl) cs⟩
  · cases h

theorem flat_fraction (whole : List Char) : Flat (fraction whole) := by
  refine .of_nests fun {cs parts rest} h => ?_
  unfold fraction at h
  split at h
  · cases h
    exact (nests_cons (by decide) _).trans_flat (nests_dropWhile (isInert_of_test rfl) _)
  · cases h
    exact nests_refl cs

theorem flat_leadingPoint : Flat leadingPoint := by
  refine .of_nests fun {cs parts rest} h => ?_
  unfold leadingPoint at h
  split at h
  · have hdigits := flat_digits.map (Q := fun _ m => m = 0) (f := fun ds => (([] : List Char), ds))
      fun _ _ => id
    exact (nests_cons (by decide) _).trans_flat (Flat.nests hdigits h)
  · cases h

theorem flat_mantissa : Flat Word.mantissa := by
  refine .of_nests fun {cs parts rest} h => ?_
  rw [mantissa_eq] at h
  split at h
  · rename_i hdigits
    exact (flat_digits.nests hdigits).trans_flat ((flat_fraction _).nests h)
  · exact flat_leadingPoint.nests h

theorem flat_signedDigits : Flat signedDigits := by
  have hdigits (f : Nat → Int) := flat_digits.map (Q := fun _ m => m = 0)
    (f := fun ds => f (Decimal.natOfDigits ds)) fun _ _ => id
  refine .of_nests fun {cs e rest} h => ?_
  unfold signedDigits at h
  split at h
  · exact (nests_cons (by decide) _).trans_flat (Flat.nests (hdigits (-·)) h)
  · unfold unsignedDigits at h
    split at h
    · exact (nests_cons (by decide) _).trans_flat (Flat.nests (hdigits Nat.cast) h)
    · exact Flat.nests (hdigits Nat.cast) h

theorem flat_exponent : Flat Word.exponent := by
  refine .of_cons rfl fun {c cs e rest} h => ?_
  rw [exponent_cons] at h
  split at h
  · rename_i hc
    exact ⟨isInert_of_test (p := fun c => c = 'e' || c = 'E') rfl c hc,
      flat_signedDigits.nests h⟩
  · cases h

theorem flat_magnitude : Flat Word.magnitude := by
  refine .of_nests fun {cs x rest} h => ?_
  obtain ⟨parts, mid, _, rfl, hnests, h⟩ := flat_mantissa.bind h
  cases h
  exact hnests.trans_flat (flat_exponent.opt mid)

theorem flat_quotedBy {q : Char} (hq : isQuote q) : Flat (Word.quotedBy q) := by
  refine .of_nests fun {cs s rest} h => ?_
  cases cs with
  | nil => cases h
  | cons c cs =>
    unfold Word.quotedBy at h
    dsimp only at h
    split at h
    · rename_i hc
      subst hc
      split at h
      · cases h
      · rename_i hend
        cases h
        intro depth
        rw [reach, if_pos rfl, Nat.zero_max, bracketDepthFrom, if_pos hq, bracketDepthFrom_some,
          hend, List.tail_cons]
    · cases h

theorem flat_quoted : Flat Word.quoted :=
  (flat_quotedBy rfl).orElse (flat_quotedBy rfl)

end Beamline.Deck

import Beamline.Cache
import Beamline.Proofs.Table
import Mathlib.Data.List.Dedup
import Mathlib.Data.List.DropRight
import Mathlib.Data.Set.Function

/-!
# What a cache answers

* `Cache.Call`, `Cache.run` : what can be asked of a cache, and the history of a sequence of calls;
* `Cache.lately` : the texts that calls decoded since they last cleared the cache;
* `Cache.Remembers` : what a cache holds after a history, kept by every further call;
* `Cache.run_answers` : what a cache answers if its texts have fingerprints of their own, which
  answers are one and the same, and how many texts are counted.
-/

namespace Beamline.Cache

/-! ## Histories -/

/-- What can be asked of a cache. -/
inductive Call where
  | decode (text : String)
  | clear
  | size
  deriving DecidableEq

/-- What comes back from a call. -/
inductive Reply where
  | answer (a : Answer)
  | done
  | count (n : Nat)

/-- Calls with what came back from them. -/
abbrev History := List (Call × Reply)

def call (c : Cache) : Call → Reply × Cache
  | .decode text => (.answer (c.decode text).1, (c.decode text).2)
  | .clear => (.done, c.clear)
  | .size => (.count c.size, c)

/-- The history of a sequence of calls to an empty cache, and the cache after them. -/
def run (policy : Policy) (calls : List Call) : History × Cache :=
  calls.foldl (fun r c => (r.1 ++ [(c, (r.2.call c).1)], (r.2.call c).2)) ([], .empty policy)

def Call.text? : Call → Option String
  | decode text => some text
  | _ => none

/-- The texts that calls decoded since they last cleared the cache. -/
def lately (calls : List Call) : List String :=
  (calls.rtakeWhile (· ≠ .clear)).filterMap Call.text?

/-- The text was decoded with this answer, and the cache has not been cleared since. -/
def Recent (h : History) (text : String) (a : Answer) : Prop :=
  ∃ h₁ h₂, h = h₁ ++ (.decode text, .answer a) :: h₂ ∧ .clear ∉ h₂.map Prod.fst

variable {policy : Policy} {calls : List Call} {h : History} {c : Cache} {text : String}
  {a : Answer}

theorem run_append_singleton (policy : Policy) (calls : List Call) (x : Call) :
    run policy (calls ++ [x]) = ((run policy calls).1 ++ [(x, ((run policy calls).2.call x).1)],
      ((run policy calls).2.call x).2) := by
  simp [run]

theorem map_fst_run (policy : Policy) (calls : List Call) :
    (run policy calls).1.map Prod.fst = calls := by
  induction calls using List.reverseRecOn with
  | nil => rfl
  | append_singleton calls x ih => rw [run_append_singleton, List.map_append, ih]; rfl

@[simp] theorem lately_append_decode (calls : List Call) (text : String) :
    lately (calls ++ [.decode text]) = lately calls ++ [text] := by
  simp [lately, Call.text?]

@[simp] theorem lately_append_clear (calls : List Call) : lately (calls ++ [.clear]) = [] := by
  simp [lately]

@[simp] theorem lately_append_size (calls : List Call) :
    lately (calls ++ [.size]) = lately calls := by
  simp [lately, Call.text?]

theorem mem_lately {calls : List Call} {text : String} (h : text ∈ lately calls) :
    .decode text ∈ calls := by
  obtain ⟨x, hx, htext⟩ := List.mem_filterMap.1 h
  cases x with
  | decode t =>
    cases htext
    exact (List.rtakeWhile_suffix _ _).subset hx
  | clear => cases htext
  | size => cases htext

/-! ## What is recent -/

theorem append_singleton_eq_iff {α : Type} {xs ys zs : List α} {x y : α} :
    xs ++ [x] = ys ++ y :: zs ↔
      zs = [] ∧ xs = ys ∧ x = y ∨ ∃ zs', zs = zs' ++ [x] ∧ xs = ys ++ y :: zs' := by
  induction zs using List.reverseRecOn with
  | nil => simp
  | append_singleton zs z _ =>
    rw [← List.cons_append, ← List.append_assoc]
    constructor
    · intro heq
      obtain ⟨hxs, hx⟩ := List.append_inj' heq rfl
      exact .inr ⟨zs, by rw [hx], hxs⟩
    · rintro (⟨hnil, -⟩ | ⟨zs', heq, hxs⟩)
      · exact absurd hnil (by simp)
      · obtain ⟨rfl, hx⟩ := List.append_inj' heq rfl
        rw [hxs, hx]

theorem recent_append_singleton {x : Call × Reply} : Recent (h ++ [x]) text a ↔
    x = (.decode text, .answer a) ∨ x.1 ≠ .clear ∧ Recent h text a := by
  unfold Recent
  constructor
  · rintro ⟨h₁, h₂, heq, hclear⟩
    rcases append_singleton_eq_iff.1 heq with ⟨-, -, hx⟩ | ⟨h₂, rfl, rfl⟩
    · exact .inl hx
    · rw [List.map_append, List.mem_append, not_or] at hclear
      exact .inr ⟨fun hx => hclear.2 (by simp [hx]), h₁, h₂, rfl, hclear.1⟩
  · rintro (rfl | ⟨hx, h₁, h₂, rfl, hclear⟩)
    · exact ⟨h, [], rfl, List.not_mem_nil⟩
    · refine ⟨h₁, h₂ ++ [x], by simp, ?_⟩
      rw [List.map_append, List.mem_append, not_or]
      exact ⟨hclear, fun hmem => hx (List.mem_singleton.1 hmem).symm⟩

@[simp] theorem not_recent_nil : ¬ Recent [] text a := by
  rintro ⟨h₁, h₂, heq, -⟩
  exact absurd heq (by simp)

@[simp] theorem recent_append_decode {t : String} {b : Answer} :
    Recent (h ++ [(.decode t, .answer b)]) text a ↔ t = text ∧ b = a ∨ Recent h text a := by
  simp [recent_append_singleton]

@[simp] theorem not_recent_append_clear {r : Reply} : ¬ Recent (h ++ [(.clear, r)]) text a := by
  simp [recent_append_singleton]

@[simp] theorem recent_append_size {r : Reply} :
    Recent (h ++ [(.size, r)]) text a ↔ Recent h text a := by
  simp [recent_append_singleton]

theorem Recent.mem (h' : Recent h text a) : (.decode text, .answer a) ∈ h := by
  obtain ⟨h₁, h₂, rfl, -⟩ := h'
  simp

/-! ## What a cache holds -/

theorem decode_of_lookup (hit : c.answers.lookup (fingerprint text) = some a) :
    c.decode text = (a, c) := by
  simp only [decode, hit]

theorem decode_of_lookup_eq_none (miss : c.answers.lookup (fingerprint text) = none) :
    c.decode text = (⟨c.next, Document.decode c.policy text⟩,
      { c with
        answers := (fingerprint text, ⟨c.next, Document.decode c.policy text⟩) :: c.answers
        next := c.next + 1 }) := by
  simp only [decode, miss]

/-- What a cache holds after a history: the recent answers under the fingerprints of their texts.
All answers there have been have smaller numbers than the next. -/
structure Remembers (policy : Policy) (h : History) (c : Cache) : Prop where
  policy : c.policy = policy
  known : ∀ text a, Recent h text a → c.answers.lookup (fingerprint text) = some a
  held : ∀ key a, c.answers.lookup key = some a → ∃ text, fingerprint text = key ∧ Recent h text a
  texts : ∀ key, key ∈ Table.keys c.answers ↔ ∃ t ∈ lately (h.map Prod.fst), fingerprint t = key
  nodup : (Table.keys c.answers).Nodup
  old : ∀ text a, (.decode text, .answer a) ∈ h → a.serial < c.next

namespace Remembers

theorem empty (policy : Policy) : Remembers policy [] (.empty policy) where
  policy := rfl
  known := fun text a hrecent => absurd hrecent not_recent_nil
  held := fun key a hlookup => by cases hlookup
  texts := fun key => by simp [Cache.empty, Table.keys, lately]
  nodup := List.nodup_nil
  old := fun text a hmem => absurd hmem List.not_mem_nil

/-- A text that is held is answered from what is held. -/
theorem hit (hc : Remembers policy h c) (hit : c.answers.lookup (fingerprint text) = some a) :
    Remembers policy (h ++ [(.decode text, .answer a)]) c := by
  have hkey : fingerprint text ∈ Table.keys c.answers := Table.lookup_isSome.1 (by rw [hit]; rfl)
  refine ⟨hc.policy, fun t b hrecent => ?_, fun key b hlookup => ?_, fun key => ?_, hc.nodup,
    fun t b hmem => ?_⟩
  · rcases recent_append_decode.1 hrecent with ⟨rfl, rfl⟩ | hrecent
    · exact hit
    · exact hc.known t b hrecent
  · obtain ⟨t, ht, hrecent⟩ := hc.held key b hlookup
    exact ⟨t, ht, recent_append_decode.2 (.inr hrecent)⟩
  · rw [hc.texts] at hkey
    rw [hc.texts]
    simp only [List.map_append, List.map_singleton, lately_append_decode, List.mem_append,
      List.mem_singleton, or_and_right, exists_or, exists_eq_left]
    exact ⟨.inl, fun h => h.elim id fun heq => heq ▸ hkey⟩
  · rcases List.mem_append.1 hmem with hmem | hmem
    · exact hc.old t b hmem
    · cases List.mem_singleton.1 hmem
      obtain ⟨t, -, hrecent⟩ := hc.held _ _ hit
      exact hc.old t a hrecent.mem

/-- A text that is not held is decoded, and held from then on. -/
theorem miss (hc : Remembers policy h c) (miss : c.answers.lookup (fingerprint text) = none) :
    Remembers policy (h ++ [(.decode text, .answer (c.decode text).1)]) (c.decode text).2 := by
  rw [decode_of_lookup_eq_none miss]
  have hnew := Table.lookup_eq_none.1 miss
  refine ⟨hc.policy, fun t b hrecent => ?_, fun key b hlookup => ?_, fun key => ?_,
    List.nodup_cons.2 ⟨hnew, hc.nodup⟩, fun t b hmem => ?_⟩
  · rcases recent_append_decode.1 hrecent with ⟨rfl, rfl⟩ | hrecent
    · exact List.lookup_cons_self
    · have hlookup := hc.known t b hrecent
      have hne : (fingerprint t == fingerprint text) = false := by
        rw [beq_eq_false_iff_ne]
        intro heq
        rw [heq, miss] at hlookup
        cases hlookup
      rw [List.lookup_cons, hne]
      exact hlookup
  · rw [List.lookup_cons] at hlookup
    split at hlookup
    · rename_i hkey
      cases hlookup
      exact ⟨text, (eq_of_beq hkey).symm, recent_append_decode.2 (.inl ⟨rfl, rfl⟩)⟩
    · obtain ⟨t, ht, hrecent⟩ := hc.held key b hlookup
      exact ⟨t, ht, recent_append_decode.2 (.inr hrecent)⟩
  · rw [List.map_append, List.map_singleton, lately_append_decode, Table.keys, List.map_cons,
      List.mem_cons, ← Table.keys, hc.texts]
    simp only [List.mem_append, List.mem_singleton, or_and_right, exists_or, exists_eq_left]
    rw [or_comm, eq_comm]
  · rcases List.mem_append.1 hmem with hmem | hmem
    · exact (hc.old t b hmem).trans (Nat.lt_succ_self _)
    · cases List.mem_singleton.1 hmem
      exact Nat.lt_succ_self _

/-- A cache that is cleared holds nothing, but its numbers go on. -/
theorem clear (hc : Remembers policy h c) : Remembers policy (h ++ [(.clear, .done)]) c.clear where
  policy := hc.policy
  known := fun t b hrecent => absurd hrecent not_recent_append_clear
  held := fun key b hlookup => by cases hlookup
  texts := fun key => by simp [Cache.clear, Table.keys]
  nodup := List.nodup_nil
  old := fun t b hmem => hc.old t b (by simpa using hmem)

theorem size (hc : Remembers policy h c) (n : Nat) :
    Remembers policy (h ++ [(.size, .count n)]) c where
  policy := hc.policy
  known := fun t b hrecent => hc.known t b (recent_append_size.1 hrecent)
  held := fun key b hlookup => by simpa using hc.held key b hlookup
  texts := by simpa using hc.texts
  nodup := hc.nodup
  old := fun t b hmem => hc.old t b (by simpa using hmem)

/-- Every call keeps a cache in step with its history. -/
theorem call (hc : Remembers policy h c) (x : Call) :
    Remembers policy (h ++ [(x, (c.call x).1)]) (c.call x).2 := by
  cases x with
  | decode text =>
    cases hlookup : c.answers.lookup (fingerprint text) with
    | some a =>
      rw [Cache.call, decode_of_lookup hlookup]
      exact hc.hit hlookup
    | none => exact hc.miss hlookup
  | clear => exact hc.clear
  | size => exact hc.size c.size

/-- The texts of a cache are counted if they have fingerprints of their own. -/
theorem size_eq (hc : Remembers policy h c)
    (hdistinct : Set.InjOn fingerprint {t | Call.decode t ∈ h.map Prod.fst}) :
    c.size = (lately (h.map Prod.fst)).dedup.length := by
  have hnodup : ((lately (h.map Prod.fst)).dedup.map fingerprint).Nodup := by
    refine (List.nodup_dedup _).map_on fun s hs t ht heq => ?_
    exact hdistinct (mem_lately (List.mem_dedup.1 hs)) (mem_lately (List.mem_dedup.1 ht)) heq
  have hperm : (Table.keys c.answers).Perm ((lately (h.map Prod.fst)).dedup.map fingerprint) := by
    rw [List.perm_ext_iff_of_nodup hc.nodup hnodup]
    intro key
    simp [hc.texts]
  have hlength := hperm.length_eq
  rwa [Table.keys, List.length_map, List.length_map] at hlength

end Remembers

/-- After any sequence of calls a cache holds the recent answers. -/
theorem remembers_run (policy : Policy) (calls : List Call) :
    Remembers policy (run policy calls).1 (run policy calls).2 := by
  induction calls using List.reverseRecOn with
  | nil => exact .empty policy
  | append_singleton calls x ih =>
    rw [run_append_singleton]
    exact ih.call x

/-! ## What a cache answers -/

/-- Every text is answered with what it decodes to. Two answers are one and the same just if their
texts are equal and the cache was not cleared between them. Texts are counted as often as there are
different ones since the cache was last cleared. -/
structure Faithful (policy : Policy) (h : History) : Prop where
  answer : ∀ text r, (.decode text, r) ∈ h →
    ∃ serial, r = .answer ⟨serial, Document.decode policy text⟩
  shared : ∀ h₁ h₂ h₃ s a t b,
    h = h₁ ++ (.decode s, .answer a) :: (h₂ ++ (.decode t, .answer b) :: h₃) →
    (a.serial = b.serial ↔ s = t ∧ .clear ∉ h₂.map Prod.fst)
  count : ∀ h₁ h₂ r, h = h₁ ++ (.size, r) :: h₂ →
    r = .count (lately (h₁.map Prod.fst)).dedup.length

namespace Faithful

/-- An answer with the number of a recent one is that answer or one since, for the same text. -/
theorem recent_unique (hh : Faithful policy h) {s t : String} {b : Answer} {h₁ h₂ : History}
    (hs : h = h₁ ++ (.decode s, .answer a) :: h₂) (ht : Recent h t b)
    (hserial : a.serial = b.serial) : s = t ∧ .clear ∉ h₂.map Prod.fst := by
  obtain ⟨g₁, g₂, hg, hclear⟩ := ht
  rcases List.append_eq_append_iff.1 (hs.symm.trans hg) with ⟨g, hg₁, hrest⟩ | ⟨g, hh₁, hrest⟩
  · cases g with
    | nil =>
      cases hrest
      exact ⟨rfl, hclear⟩
    | cons e g =>
      rw [List.cons_append] at hrest
      obtain ⟨rfl, rfl⟩ := List.cons.inj hrest
      obtain ⟨hst, hbetween⟩ := (hh.shared _ _ _ _ _ _ _ hs).1 hserial
      subst hst
      refine ⟨rfl, ?_⟩
      rw [List.map_append, List.map_cons, List.mem_append, List.mem_cons]
      rintro (hmem | hmem | hmem)
      · exact hbetween hmem
      · cases hmem
      · exact hclear hmem
  · cases g with
    | nil =>
      cases hrest
      exact ⟨rfl, hclear⟩
    | cons e g =>
      rw [List.cons_append] at hrest
      obtain ⟨rfl, rfl⟩ := List.cons.inj hrest
      obtain ⟨hst, -⟩ := (hh.shared _ _ _ _ _ _ _ hg).1 hserial.symm
      refine ⟨hst.symm, fun hmem => hclear ?_⟩
      rw [List.map_append, List.mem_append]
      exact .inr (List.mem_cons_of_mem _ hmem)

theorem nil (policy : Policy) : Faithful policy [] where
  answer := fun text r hmem => absurd hmem List.not_mem_nil
  shared := fun h₁ h₂ h₃ s a t b heq => absurd heq (by simp)
  count := fun h₁ h₂ r heq => absurd heq (by simp)

/-- What has to be seen of one call more. -/
theorem append_singleton (hh : Faithful policy h) {e : Call × Reply}
    (answer : ∀ text r, e = (.decode text, r) →
      ∃ serial, r = .answer ⟨serial, Document.decode policy text⟩)
    (shared : ∀ h₁ h₂ s a t b, e = (.decode t, .answer b) →
      h = h₁ ++ (.decode s, .answer a) :: h₂ →
      (a.serial = b.serial ↔ s = t ∧ .clear ∉ h₂.map Prod.fst))
    (count : ∀ r, e = (.size, r) → r = .count (lately (h.map Prod.fst)).dedup.length) :
    Faithful policy (h ++ [e]) where
  answer := fun text r hmem => by
    rcases List.mem_append.1 hmem with hmem | hmem
    · exact hh.answer text r hmem
    · exact answer text r (List.mem_singleton.1 hmem).symm
  shared := fun h₁ h₂ h₃ s a t b heq => by
    rw [← List.cons_append, ← List.append_assoc] at heq
    rcases append_singleton_eq_iff.1 heq with ⟨-, heq, he⟩ | ⟨h₃, -, heq⟩
    · exact shared h₁ h₂ s a t b he heq
    · exact hh.shared h₁ h₂ h₃ s a t b (by simpa using heq)
  count := fun h₁ h₂ r heq => by
    rcases append_singleton_eq_iff.1 heq with ⟨-, rfl, he⟩ | ⟨h₂, -, heq⟩
    · exact count r he
    · exact hh.count h₁ h₂ r heq

/-- The answer of a cache is an earlier one just if that one was for the same text and is recent. -/
theorem serial_eq_iff (hh : Faithful policy h) (hc : Remembers policy h c) {s t : String}
    {h₁ h₂ : History} (hs : h = h₁ ++ (.decode s, .answer a) :: h₂)
    (hdistinct : ∀ t', .decode t' ∈ h.map Prod.fst → fingerprint t' = fingerprint t → t' = t) :
    a.serial = (c.decode t).1.serial ↔ s = t ∧ .clear ∉ h₂.map Prod.fst := by
  have recent : ∀ (_ : s = t ∧ .clear ∉ h₂.map Prod.fst),
      c.answers.lookup (fingerprint t) = some a := fun hboth =>
    hboth.1 ▸ hc.known s a ⟨h₁, h₂, hs, hboth.2⟩
  cases hlookup : c.answers.lookup (fingerprint t) with
  | some b =>
    rw [decode_of_lookup hlookup]
    constructor
    · intro hserial
      obtain ⟨t', hkey, hrecent⟩ := hc.held _ _ hlookup
      have ht' : t' = t := hdistinct t' (List.mem_map_of_mem hrecent.mem) hkey
      exact hh.recent_unique hs (ht' ▸ hrecent) hserial
    · intro hboth
      rw [recent hboth] at hlookup
      cases hlookup
      rfl
  | none =>
    rw [decode_of_lookup_eq_none hlookup]
    have hold : a.serial < c.next := hc.old s a (by simp [hs])
    refine iff_of_false hold.ne fun hboth => ?_
    rw [recent hboth] at hlookup
    cases hlookup

/-- The answer of a cache is what its text decodes to. -/
theorem decode_result (hh : Faithful policy h) (hc : Remembers policy h c)
    (hdistinct : ∀ t', .decode t' ∈ h.map Prod.fst → fingerprint t' = fingerprint text →
      t' = text) :
    (c.decode text).1.result = Document.decode policy text := by
  cases hlookup : c.answers.lookup (fingerprint text) with
  | some b =>
    rw [decode_of_lookup hlookup]
    obtain ⟨t', hkey, hrecent⟩ := hc.held _ _ hlookup
    have ht' : t' = text := hdistinct t' (List.mem_map_of_mem hrecent.mem) hkey
    obtain ⟨serial, hb⟩ := hh.answer t' _ hrecent.mem
    cases hb
    rw [ht']
  | none =>
    rw [decode_of_lookup_eq_none hlookup, ← hc.policy]

/-- Every call keeps a history faithful, if its texts have fingerprints of their own. -/
theorem call (hh : Faithful policy h) (hc : Remembers policy h c) (x : Call)
    (hdistinct : Set.InjOn fingerprint {t | .decode t ∈ h.map Prod.fst ++ [x]}) :
    Faithful policy (h ++ [(x, (c.call x).1)]) := by
  have hold : ∀ t, .decode t ∈ h.map Prod.fst → .decode t ∈ h.map Prod.fst ++ [x] :=
    fun t ht => List.mem_append_left _ ht
  cases x with
  | decode text =>
    have hown : ∀ t', .decode t' ∈ h.map Prod.fst → fingerprint t' = fingerprint text →
        t' = text :=
      fun t' ht' heq => hdistinct (hold t' ht') (by simp) heq
    refine hh.append_singleton (fun t r he => ?_) (fun h₁ h₂ s a t b he hs => ?_) (fun r he => ?_)
    · cases he
      exact ⟨(c.decode text).1.serial, by rw [← hh.decode_result hc hown]; rfl⟩
    · cases he
      exact hh.serial_eq_iff hc hs hown
    · cases he
  | clear =>
    exact hh.append_singleton (fun t r he => by cases he) (fun h₁ h₂ s a t b he => by cases he)
      (fun r he => by cases he)
  | size =>
    refine hh.append_singleton (fun t r he => by cases he) (fun h₁ h₂ s a t b he => by cases he)
      (fun r he => ?_)
    cases he
    rw [Cache.call, hc.size_eq (hdistinct.mono hold)]

end Faithful

/-- Texts that have fingerprints of their own are answered with what they decode to, by one answer
for equal texts until the cache is cleared, and each of them is counted once. -/
theorem run_answers (policy : Policy) (calls : List Call)
    (hdistinct : Set.InjOn fingerprint {t | .decode t ∈ calls}) :
    (run policy calls).1.map Prod.fst = calls ∧ Faithful policy (run policy calls).1 ∧
      (run policy calls).2.size = (lately calls).dedup.length := by
  refine ⟨map_fst_run policy calls, ?_, ?_⟩
  · induction calls using List.reverseRecOn with
    | nil => exact .nil policy
    | append_singleton calls x ih =>
      have hold : Set.InjOn fingerprint {t | .decode t ∈ calls} :=
        hdistinct.mono fun t ht => List.mem_append_left _ ht
      rw [run_append_singleton]
      refine (ih hold).call (remembers_run policy calls) x ?_
      rwa [map_fst_run]
  · have hsize := (remembers_run policy calls).size_eq
    rw [map_fst_run] at hsize
    exact hsize hdistinct

/-- A brace is decoded once for two calls, and anew after the cache is cleared. -/
theorem run_answers_cleared : ∃ a b c d,
    (run .standard [.decode "\x7b", .decode "", .decode "\x7b", .clear, .decode "\x7b"]).1 =
      [(.decode "\x7b", .answer a), (.decode "", .answer b), (.decode "\x7b", .answer c),
        (.clear, .done), (.decode "\x7b", .answer d)] ∧
    a.serial = c.serial ∧ a.serial ≠ b.serial ∧ c.serial ≠ d.serial ∧
    (run .standard [.decode "\x7b", .decode "", .decode "\x7b", .clear, .decode "\x7b"]).2.size =
      1 := by
  have hne : fingerprint "" ≠ fingerprint "\x7b" := by decide +kernel
  have hdistinct : Set.InjOn fingerprint {t | .decode t ∈
      [Call.decode "\x7b", .decode "", .decode "\x7b", .clear, .decode "\x7b"]} := by
    intro s hs t ht heq
    have hs : s = "\x7b" ∨ s = "" ∨ s = "\x7b" := by simpa using hs
    have ht : t = "\x7b" ∨ t = "" ∨ t = "\x7b" := by simpa using ht
    grind
  obtain ⟨-, hanswers, hsize⟩ := run_answers .standard _ hdistinct
  have hrun : (run .standard
      [.decode "\x7b", .decode "", .decode "\x7b", .clear, .decode "\x7b"]).1 =
      [(.decode "\x7b", .answer ⟨0, Document.decode .standard "\x7b"⟩),
        (.decode "", .answer ⟨1, Document.decode .standard ""⟩),
        (.decode "\x7b", .answer ⟨0, Document.decode .standard "\x7b"⟩), (.clear, .done),
        (.decode "\x7b", .answer ⟨2, Document.decode .standard "\x7b"⟩)] := by
    have hbeq := beq_false_of_ne hne
    have hbeq' := beq_false_of_ne hne.symm
    simp [run, call, decode, empty, clear, List.lookup_cons, hbeq, hbeq']
  have hshared := hanswers.shared
  rw [hrun] at hshared
  refine ⟨_, _, _, _, hrun, ?_, ?_, ?_, hsize⟩
  · exact (hshared [] [(.decode "", .answer _)] _ _ _ _ _ rfl).2 (by simp)
  · exact fun h => absurd ((hshared [] [] _ _ _ _ _ rfl).1 h).1 (by decide)
  · exact fun h => ((hshared [_, _] [(.clear, .done)] _ _ _ _ _ rfl).1 h).2 (by simp)

end Beamline.Cache

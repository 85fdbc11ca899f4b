import Beamline.Json.Reader
import Beamline.Proofs.Bind
import Beamline.Proofs.Json.Scalar
import Beamline.Proofs.Table

/-!
# What is read and what reads back

* `Readable` : the values that a text can spell, containers nested at most so deep;
* `value_readable`, `parse_readable` : whatever is read is readable;
* `exists_brace_of_parse` : an object is read behind a brace;
* `Spells` : a text is a spelling of a value, whatever gaps it has between its tokens;
* `value_of_spells`, `parse_of_spells` : every spelling of a readable value is read as the value.

The readers of items and members take the reader of values as an argument, so their lemmas take
what is known of that reader as a hypothesis, and the induction is on the room for nesting.
-/

namespace Beamline.Json

open Text

/-- The values that a text can spell: numbers are legible, the names in an object are distinct,
and arrays and objects nest at most `room` deep. -/
def Readable : (room : Nat) → Json → Prop
  | _, .null => True
  | _, .bool _ => True
  | _, .num n => n.Legible
  | _, .str _ => True
  | 0, .arr _ => False
  | 0, .obj _ => False
  | room + 1, .arr items => ∀ v ∈ items, Readable room v
  | room + 1, .obj members => (Table.keys members).Nodup ∧ ∀ m ∈ members, Readable room m.2

theorem Readable.mono {room : Nat} {v : Json} (h : Readable room v) : ∀ {room' : Nat},
    room ≤ room' → Readable room' v := by
  induction room generalizing v with
  | zero =>
    intro room' _
    cases v with
    | arr items => exact h.elim
    | obj members => exact h.elim
    | num n =>
      rw [Readable.eq_def] at h ⊢
      exact h
    | _ => rw [Readable.eq_def]; trivial
  | succ room ih =>
    intro room' hle
    obtain ⟨room', rfl⟩ : ∃ r, room' = r + 1 := ⟨room' - 1, by omega⟩
    have hle : room ≤ room' := by omega
    cases v with
    | arr items => exact fun v hv => ih (h v hv) hle
    | obj members => exact ⟨h.1, fun m hm => ih (h.2 m hm) hle⟩
    | num n =>
      rw [Readable.eq_def] at h ⊢
      exact h
    | _ => rw [Readable.eq_def]; trivial

/-- The object in a pair is readable, with room for what is in it. -/
theorem Readable.object_of_pair {room : Nat} {v : Json} {members : List (String × Json)}
    (h : Readable room (.arr [v, .obj members])) :
    ∃ r, room = r + 2 ∧ Readable (r + 1) (.obj members) := by
  match room, h with
  | 1, h => exact (h (.obj members) (by simp)).elim
  | r + 2, h => exact ⟨r, rfl, h (.obj members) (by simp)⟩

/-! ## What is read is readable -/

theorem word_eq {v w : Json} {expected cs rest : List Char}
    (h : word v expected cs = .ok (w, rest)) : w = v := by
  induction expected generalizing cs with
  | nil => cases h; rfl
  | cons e expected ih =>
    cases cs with
    | nil => cases h
    | cons c cs =>
      unfold word at h
      split at h
      · exact ih h
      · cases h

section Sound

variable {item : List Char → Outcome (Got Json)} {P : Json → Prop}
  (hitem : ∀ {cs v rest}, item cs = .ok (v, rest) → P v)
include hitem

theorem forall_moreItems {bound cs rest : List Char} {vs : List Json}
    (h : moreItems item bound cs = .ok (vs, rest)) : ∀ v ∈ vs, P v := by
  induction bound generalizing cs vs with
  | nil => cases h
  | cons b bound ih =>
    obtain ⟨⟨more, cs⟩, -, h⟩ := bind_eq_ok.1 h
    cases more with
    | false =>
      cases h
      exact fun v hv => absurd hv List.not_mem_nil
    | true =>
      obtain ⟨⟨v, cs⟩, hv, h⟩ := bind_eq_ok.1 h
      obtain ⟨⟨vs, cs⟩, hvs, h⟩ := bind_eq_ok.1 h
      cases h
      exact List.forall_mem_cons.2 ⟨hitem hv, ih hvs⟩

theorem forall_itemList {cs rest : List Char} {vs : List Json}
    (h : itemList item cs = .ok (vs, rest)) : ∀ v ∈ vs, P v := by
  unfold itemList at h
  split at h
  · cases h
  · split at h
    · cases h
      exact fun v hv => absurd hv List.not_mem_nil
    · obtain ⟨⟨v, cs⟩, hv, h⟩ := bind_eq_ok.1 h
      obtain ⟨⟨vs, cs⟩, hvs, h⟩ := bind_eq_ok.1 h
      cases h
      exact List.forall_mem_cons.2 ⟨hitem hv, forall_moreItems hitem hvs⟩

theorem of_member {cs rest : List Char} {m : String × Json}
    (h : member item cs = .ok (m, rest)) : P m.2 := by
  unfold member at h
  split at h
  · obtain ⟨⟨key, cs⟩, -, h⟩ := bind_eq_ok.1 h
    dsimp only at h
    split at h
    · cases h
    · obtain ⟨⟨v, cs⟩, hv, h⟩ := bind_eq_ok.1 h
      cases h
      exact hitem hv
    · cases h
  · cases h

theorem forall_moreMembers {bound cs rest : List Char} {ms : List (String × Json)}
    (h : moreMembers item bound cs = .ok (ms, rest)) : ∀ m ∈ ms, P m.2 := by
  induction bound generalizing cs ms with
  | nil => cases h
  | cons b bound ih =>
    obtain ⟨⟨more, cs⟩, -, h⟩ := bind_eq_ok.1 h
    cases more with
    | false =>
      cases h
      exact fun m hm => absurd hm List.not_mem_nil
    | true =>
      obtain ⟨⟨m, cs⟩, hm, h⟩ := bind_eq_ok.1 h
      obtain ⟨⟨ms, cs⟩, hms, h⟩ := bind_eq_ok.1 h
      cases h
      exact List.forall_mem_cons.2 ⟨of_member hitem hm, ih hms⟩

theorem forall_memberList {cs rest : List Char} {ms : List (String × Json)}
    (h : memberList item cs = .ok (ms, rest)) : ∀ m ∈ ms, P m.2 := by
  unfold memberList at h
  split at h
  · cases h
  · split at h
    · cases h
      exact fun m hm => absurd hm List.not_mem_nil
    · obtain ⟨⟨m, cs⟩, hm, h⟩ := bind_eq_ok.1 h
      obtain ⟨⟨ms, cs⟩, hms, h⟩ := bind_eq_ok.1 h
      cases h
      exact List.forall_mem_cons.2 ⟨of_member hitem hm, forall_moreMembers hitem hms⟩

end Sound

/-- Whatever is read is readable. -/
theorem value_readable {room : Nat} {cs rest : List Char} {v : Json}
    (h : value room cs = .ok (v, rest)) : Readable room v := by
  induction room using Nat.strongRecOn generalizing cs v rest with
  | ind room ih =>
    -- the cases are the first characters, in the order in which the reader tries them
    unfold value at h
    split at h
    · cases h
    · split at h
      · rw [word_eq h, Readable.eq_def]
        trivial
      split at h
      · rw [word_eq h, Readable.eq_def]
        trivial
      split at h
      · rw [word_eq h, Readable.eq_def]
        trivial
      split at h
      · obtain ⟨n, rfl, hn⟩ := number_isLegible h
        rw [Readable.eq_def]
        exact hn
      split at h
      · obtain ⟨n, rfl, hn⟩ := number_isLegible h
        rw [Readable.eq_def]
        exact hn
      split at h
      · obtain ⟨⟨s, rest⟩, -, h⟩ := bind_eq_ok.1 h
        cases h
        rw [Readable.eq_def]
        trivial
      split at h
      · cases room with
        | zero => cases h
        | succ room =>
          obtain ⟨⟨vs, rest⟩, hvs, h⟩ := bind_eq_ok.1 h
          cases h
          exact forall_itemList (ih room (Nat.lt_succ_self _)) hvs
      split at h
      · cases room with
        | zero => cases h
        | succ room =>
          obtain ⟨⟨ms, rest⟩, hms, h⟩ := bind_eq_ok.1 h
          cases h
          refine ⟨Table.nodup_keys_ofList ms, fun m hm => ?_⟩
          exact forall_memberList (P := Readable room) (ih room (Nat.lt_succ_self _)) hms m
            (Table.mem_of_mem_ofList hm)
      · cases h

/-- An object is read behind a brace. -/
theorem exists_brace_of_value {room : Nat} {cs rest : List Char} {ms : List (String × Json)}
    (h : value room cs = .ok (.obj ms, rest)) : ∃ body, skipGap cs = '{' :: body := by
  unfold value at h
  split at h
  · cases h
  · rename_i c body heq
    by_cases hc : c = '{'
    · exact ⟨body, by rw [heq, hc]⟩
    exfalso
    split at h
    · cases word_eq h
    split at h
    · cases word_eq h
    split at h
    · cases word_eq h
    split at h
    · obtain ⟨n, hn, -⟩ := number_isLegible h
      cases hn
    split at h
    · obtain ⟨n, hn, -⟩ := number_isLegible h
      cases hn
    split at h
    · obtain ⟨s, -, h⟩ := bind_eq_ok.1 h
      cases h
    split at h
    · cases room with
      | zero => cases h
      | succ room =>
        obtain ⟨vs, -, h⟩ := bind_eq_ok.1 h
        cases h
    · cases h

theorem exists_brace_of_parse {text : String} {ms : List (String × Json)}
    (h : parse text = .ok (.obj ms)) : ∃ body, skipGap text.toList = '{' :: body := by
  unfold parse parseChars at h
  split at h
  · cases h
  · rename_i hv
    split at h
    · cases h
      exact exists_brace_of_value hv
    · cases h

theorem parse_readable {text : String} {v : Json} (h : parse text = .ok v) :
    Readable maxDepth v := by
  unfold parse parseChars at h
  split at h
  · cases h
  · rename_i hv
    split at h
    · cases h
      exact value_readable hv
    · cases h

end Beamline.Json

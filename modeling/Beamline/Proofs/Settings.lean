import Beamline.Proofs.Document.RoundTrip
import Beamline.Proofs.Workspace
import Beamline.Settings

/-!
# Settings beside documents

* `Toml.parse?_of_brace` : a text that starts with a brace is no table;
* `Settings.parse_of_decode` : so a document is never read as settings;
* `Settings.find_write` : settings are found as before when the file of a document is overwritten.
-/

namespace Beamline

open Text

/-! ## Braces -/

namespace Toml

/-- A line that starts with a brace holds neither a header nor an entry. -/
theorem line_of_brace {cs rest : List Char} (h : skipSpace cs = '{' :: rest) (s : State) :
    line s cs = none := by
  unfold line
  rw [h]
  rfl

/-- An empty line. -/
theorem line_of_newline {c : Char} {cs rest : List Char} (h : skipSpace cs = c :: rest)
    (hc : c = '\n' ∨ c = '\r') (s : State) : line s cs = some (s, c :: rest) := by
  unfold line
  rw [h]
  rcases hc with rfl | rfl <;> rfl

theorem skipGap_skipSpace (cs : List Char) : skipGap (skipSpace cs) = skipGap cs := by
  induction cs with
  | nil => rfl
  | cons c cs ih =>
    by_cases hc : isSpace c
    · have hgap : isGap c := by
        simp only [isSpace, Bool.or_eq_true, beq_iff_eq] at hc
        rcases hc with rfl | rfl <;> rfl
      rw [skipSpace, List.dropWhile_cons_of_pos hc]
      exact ih.trans (List.dropWhile_cons_of_pos hgap).symm
    · rw [skipSpace, List.dropWhile_cons_of_neg hc]

/-- The lines before a brace are blank, so that it starts one. -/
theorem readLines_of_brace {body : List Char} (fuel : Nat) : ∀ (s : State) {cs : List Char},
    skipGap cs = '{' :: body → readLines fuel s cs = none := by
  induction fuel with
  | zero => exact fun _ _ _ => rfl
  | succ fuel ih =>
    intro s cs h
    rw [← skipGap_skipSpace] at h
    unfold readLines
    cases hspace : skipSpace cs with
    | nil =>
      rw [hspace] at h
      cases h
    | cons c rest =>
      have hstart := List.head?_dropWhile_not isSpace cs
      rw [show cs.dropWhile isSpace = c :: rest from hspace] at hstart
      rw [hspace] at h
      by_cases hgap : isGap c
      · have hc : c = '\n' ∨ c = '\r' := by
          simp only [isGap, Bool.or_eq_true, beq_iff_eq] at hgap
          rcases hgap with ((rfl | rfl) | rfl) | rfl
          · cases hstart
          · cases hstart
          · exact .inl rfl
          · exact .inr rfl
        have hrest : skipGap rest = '{' :: body := by
          rwa [skipGap, List.dropWhile_cons_of_pos hgap] at h
        rw [line_of_newline hspace hc]
        rcases hc with rfl | rfl
        · exact ih s hrest
        · cases rest with
          | nil => cases hrest
          | cons d rest =>
            by_cases hd : d = '\n'
            · subst hd
              exact ih s hrest
            · have hnewline : newline ('\r' :: d :: rest) = none := by simp [newline, hd]
              show (newline ('\r' :: d :: rest) >>= _) = none
              rw [hnewline]
              rfl
      · rw [skipGap, List.dropWhile_cons_of_neg hgap] at h
        obtain ⟨rfl, rfl⟩ := List.cons.inj h
        rw [line_of_brace hspace]
        rfl

/-- A text that starts with a brace is no table. -/
theorem parse?_of_brace {text : String} {body : List Char}
    (h : skipGap text.toList = '{' :: body) : parse? text = none := by
  unfold parse?
  split
  · rename_i heq
    rw [heq] at h
    cases h
  · dsimp only
    rw [readLines_of_brace _ _ h]
    rfl

end Toml

/-! ## Files -/

namespace Settings

variable {policy : Policy} {d : Document}

/-- A document is never read as settings. -/
theorem parse_of_decode {text : String} (h : Document.decode policy text = .ok d) :
    parse text = .error .notToml := by
  obtain ⟨v, hv, hwell, -⟩ := Document.decode_eq_ok_iff.1 h
  obtain ⟨ms, -, -, -, rfl, -⟩ := hwell
  obtain ⟨body, hbody⟩ := Json.exists_brace_of_parse hv
  rw [parse, Toml.parse?_of_brace hbody]

open Workspace

variable {c : Contents} {file text : String} {old : ByteArray} {place : List String}

section Overwrite

variable (hread : c.read file = .ok old) (htarget : c.target file = .ok place)

include hread htarget

/-- Paths hold what they held, or the text that was written instead of the old one. -/
theorem read_ofContents_write (text path : String) :
    (ofContents c).read path = .ok old ∧
        (ofContents (c.write file text)).read path = .ok text.toUTF8 ∨
      (ofContents (c.write file text)).read path = (ofContents c).read path :=
  Contents.read_write hread htarget text path

theorem holds_write (text path : String) :
    (ofContents (c.write file text)).holds path = (ofContents c).holds path := by
  rcases read_ofContents_write hread htarget text path with ⟨hold, hnew⟩ | hsame
  · rw [Workspace.holds, hnew, Workspace.holds, hold]
  · rw [Workspace.holds, hsame, Workspace.holds]

variable {before : String} (hbefore : Workspace.decodeText old = .ok before)
variable (hdecode : Document.decode policy before = .ok d)

include hbefore hdecode

/-- Settings that can be loaded are not in the file of the document. -/
theorem load_write (text : String) {path : String} {chosen : Policy}
    (h : load (ofContents c) path = .ok chosen) :
    load (ofContents (c.write file text)) path = .ok chosen := by
  rcases read_ofContents_write hread htarget text path with ⟨hold, -⟩ | hsame
  · have hparse := parse_of_decode hdecode
    have htext : (ofContents c).readText path = .ok before := by
      rw [Workspace.readText, hold]
      exact hbefore
    unfold load at h
    split at h
    · cases h
    · rw [htext] at h
      dsimp only at h
      rw [hparse] at h
      cases h
  · rwa [load, holds_write hread htarget, Workspace.readText, hsame]

theorem find_write (text : String) {asked user : Option String} {chosen : Policy}
    (h : find (ofContents c) asked user = .ok chosen) :
    find (ofContents (c.write file text)) asked user = .ok chosen := by
  have hload (path : String) (h : load (ofContents c) path = .ok chosen) :
      load (ofContents (c.write file text)) path = .ok chosen :=
    load_write hread htarget hbefore hdecode text h
  cases asked with
  | some path => exact hload path h
  | none =>
    unfold find at h ⊢
    dsimp only at h ⊢
    rw [holds_write hread htarget]
    split at h
    · rename_i hlocal
      rw [if_pos hlocal]
      exact hload _ h
    · rename_i hlocal
      rw [if_neg hlocal]
      cases user with
      | none => exact h
      | some path =>
        dsimp only at h ⊢
        rw [holds_write hread htarget]
        split at h
        · rename_i huser
          rw [if_pos huser]
          exact hload _ h
        · rename_i huser
          rw [if_neg huser]
          exact h

end Overwrite

end Settings

end Beamline

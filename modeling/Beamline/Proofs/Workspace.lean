import Beamline.Proofs.Bind
import Beamline.Proofs.Table
import Beamline.Workspace

/-!
# Writing files

* `Contents.write` : the contents when a text has been written to a file;
* `Contents.SameShape` : contents with files and directories at the same places, in which paths lead
  to the same places;
* `Contents.read_write` : to write to a file that is there changes what is read at its place, and
  nothing else;
* `Contents.write_write` : to write the same text once more changes nothing.
-/

namespace Beamline.Workspace

/-- A text is read as it was written. -/
theorem decodeText_toUTF8 (s : String) : decodeText s.toUTF8 = .ok s := by
  have hs : String.fromUTF8? s.toUTF8 = some s := dif_pos s.isValidUTF8
  rw [decodeText, hs]

namespace Contents

variable {c c' : Contents} {path text : String} {place : List String}

/-- The contents when `text` has been written to the file at `path`, if it can be. -/
def write (c : Contents) (path text : String) : Contents :=
  match c.target path with
  | .ok place => { c with files := Table.put place text.toUTF8 c.files }
  | .error _ => c

/-! ## Places -/

/-- Directories and files are at the same places. -/
structure SameShape (c c' : Contents) : Prop where
  directories : c.directories = c'.directories
  places : Table.keys c.files = Table.keys c'.files

namespace SameShape

variable (h : SameShape c c')

include h

theorem isDirectory (dir : List String) : c.isDirectory dir = c'.isDirectory dir := by
  have hany (c : Contents) : (c.files.any fun f => dir.isPrefixOf f.1 && dir.length < f.1.length) =
      (Table.keys c.files).any fun p => dir.isPrefixOf p && dir.length < p.length := by
    rw [Table.keys, List.any_map]
    rfl
  rw [Contents.isDirectory, Contents.isDirectory, hany, hany, h.directories, h.places]

theorem isSome_lookup (place : List String) :
    (c.files.lookup place).isSome = (c'.files.lookup place).isSome := by
  rw [Bool.eq_iff_iff, Table.lookup_isSome, Table.lookup_isSome, h.places]

theorem noDirectory (place : List String) : c.noDirectory place = c'.noDirectory place := by
  rw [Contents.noDirectory, Contents.noDirectory, h.isSome_lookup]

theorem follow (names : List String) : ∀ dir, c.follow dir names = c'.follow dir names := by
  induction names with
  | nil => exact fun _ => rfl
  | cons name names ih =>
    intro dir
    rw [Contents.follow, Contents.follow, h.isDirectory, h.noDirectory, ih, ih, ih]

theorem target (path : String) : c.target path = c'.target path := by
  unfold Contents.target
  simp only [h.follow, h.isDirectory, h.noDirectory]

end SameShape

/-! ## Reading and writing -/

/-- What lies at a place. -/
def contentAt (c : Contents) (place : List String) : Except FileFlaw ByteArray :=
  match c.files.lookup place with
  | some bytes => .ok bytes
  | none => .error (if c.isDirectory place then .isDirectory else .missing)

theorem read_eq (c : Contents) (path : String) : c.read path =
    if path.isEmpty then .error .missing else c.follow [] (names path) >>= c.contentAt := by
  unfold read
  split
  · rfl
  · refine congrArg (c.follow [] (names path) >>= ·) (funext fun place => ?_)
    unfold contentAt
    cases c.files.lookup place <;> rfl

theorem contentAt_eq_ok {bytes : ByteArray} :
    c.contentAt place = .ok bytes ↔ c.files.lookup place = some bytes := by
  unfold contentAt
  cases c.files.lookup place <;> simp

theorem exists_place_of_read {bytes : ByteArray} (h : c.read path = .ok bytes) :
    path.isEmpty = false ∧
      ∃ place, c.follow [] (names path) = .ok place ∧ c.files.lookup place = some bytes := by
  rw [read_eq] at h
  split at h
  · cases h
  · rename_i hpath
    obtain ⟨place, hplace, h⟩ := bind_eq_ok.1 h
    exact ⟨by simpa using hpath, place, hplace, contentAt_eq_ok.1 h⟩

/-- A path that can be written leads to the place of the file. -/
theorem follow_of_target (h : c.target path = .ok place) :
    c.follow [] (names path) = .ok place := by
  unfold target at h
  dsimp only at h
  split at h
  · cases h
  · obtain ⟨_, -, h⟩ := bind_eq_ok.1 h
    split at h
    · cases h
    · obtain ⟨place', hplace, h⟩ := bind_eq_ok.1 h
      split at h
      · cases h
      · split at h
        · cases h
        · cases h
          exact hplace

theorem write_eq (h : c.target path = .ok place) (text : String) :
    c.write path text = { c with files := Table.put place text.toUTF8 c.files } := by
  rw [write, h]

/-- To write to a file changes no other file. -/
theorem lookup_write (h : c.target path = .ok place) {other : List String} (hne : other ≠ place) :
    (c.write path text).files.lookup other = c.files.lookup other := by
  rw [write_eq h, Table.lookup_put, if_neg hne]

section Overwrite

variable {old : ByteArray} (hread : c.read path = .ok old) (htarget : c.target path = .ok place)

include hread htarget

theorem lookup_of_read : c.files.lookup place = some old := by
  obtain ⟨-, place', hplace', hlookup⟩ := exists_place_of_read hread
  rw [follow_of_target htarget] at hplace'
  cases hplace'
  exact hlookup

/-- To write to a file that is there leaves all files and directories at their places. -/
theorem sameShape_write (text : String) : SameShape c (c.write path text) := by
  have hmem : place ∈ Table.keys c.files :=
    Table.lookup_isSome.1 (Option.isSome_iff_exists.2 ⟨old, lookup_of_read hread htarget⟩)
  rw [write_eq htarget]
  exact ⟨rfl, (Table.keys_put_of_mem hmem _).symm⟩

theorem contentAt_write (text : String) (other : List String) :
    (c.write path text).contentAt other =
      if other = place then .ok text.toUTF8 else c.contentAt other := by
  have hshape := sameShape_write hread htarget text
  rw [contentAt, contentAt, ← hshape.isDirectory, write_eq htarget, Table.lookup_put]
  by_cases heq : other = place
  · rw [if_pos heq, if_pos heq]
  · rw [if_neg heq, if_neg heq]

/-- A path at which the old content was read now has the new one; all others are as they were. -/
theorem read_write (text p : String) :
    c.read p = .ok old ∧ (c.write path text).read p = .ok text.toUTF8 ∨
      (c.write path text).read p = c.read p := by
  have hshape := sameShape_write hread htarget text
  rw [read_eq, read_eq, ← hshape.follow]
  split
  · exact .inr rfl
  · cases hplace : c.follow [] (names p) with
    | error flaw => exact .inr rfl
    | ok other =>
      show c.contentAt other = _ ∧ (c.write path text).contentAt other = _ ∨
        (c.write path text).contentAt other = c.contentAt other
      rw [contentAt_write hread htarget text]
      split
      · rename_i heq
        exact .inl ⟨contentAt_eq_ok.2 (heq ▸ lookup_of_read hread htarget), rfl⟩
      · exact .inr rfl

theorem read_write_self (text : String) :
    (c.write path text).read path = .ok text.toUTF8 := by
  have hshape := sameShape_write hread htarget text
  rw [read_eq, (exists_place_of_read hread).1, ← hshape.follow, follow_of_target htarget]
  exact (contentAt_write hread htarget text place).trans (if_pos rfl)

/-- To write the same text once more changes nothing. -/
theorem write_write (text : String) :
    (c.write path text).write path text = c.write path text := by
  have hshape := sameShape_write hread htarget text
  rw [write_eq (hshape.target path ▸ htarget), write_eq htarget, Table.put_put]

end Overwrite

end Contents

end Beamline.Workspace

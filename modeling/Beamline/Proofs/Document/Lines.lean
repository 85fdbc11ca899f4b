import Beamline.Proofs.Document.Depth
import Beamline.Proofs.Json.Rows

/-!
# The lines of a document

* `Document.rows` : the lines of the text of a document, with one for each element and each lattice;
* `Document.rows_toJson` : they are the lines of its raw form;
* `Lattice.parse_entry_iff` : the line of a lattice is read back if the reader has room for its
  groups;
* `Document.lines_encode` : all of this together;
* `Document.not_parse_entry_of_build` : a line of a document that was built and cannot be read.
-/

namespace Beamline

open Json

/-! ## Entries -/

/-- The text of an entry, as it stands behind its name. -/
def Json.entryText (v : Json) : String :=
  String.ofList (line .spaced v)

theorem Element.parse_entry (e : Element) : parse e.toJson.entryText = .ok e.toJson :=
  parse_line ((e.readable_toJson 0).mono (by decide)) Marks.spaced_sound

theorem Lattice.readable_toJson_iff {l : Lattice} {room : Nat} :
    Readable room l.toJson ↔ Item.depthOf l.items < room := by
  cases room with
  | zero => exact ⟨fun h => h.elim, fun h => absurd h (Nat.not_lt_zero _)⟩
  | succ room => exact (Item.readable_listToJson_iff l.items room).trans Nat.lt_succ_iff.symm

theorem Lattice.parse_entry_tooDeep {l : Lattice} (h : maxDepth ≤ Item.depthOf l.items) :
    ∃ fault, parse l.toJson.entryText = .error fault ∧ fault.flaw = .tooDeep :=
  parse_line_tooDeep (readable_toJson_iff.2 (Nat.lt_succ_self _))
    (mt readable_toJson_iff.1 (Nat.not_lt.2 h)) Marks.spaced_sound

theorem Lattice.parse_entry_iff {l : Lattice} :
    parse l.toJson.entryText = .ok l.toJson ↔ Item.depthOf l.items < maxDepth := by
  refine ⟨fun h => ?_, fun h => parse_line (readable_toJson_iff.2 h) Marks.spaced_sound⟩
  by_contra hdeep
  obtain ⟨fault, hfault, -⟩ := parse_entry_tooDeep (Nat.le_of_not_lt hdeep)
  rw [h] at hfault
  cases hfault

namespace Document

variable {d : Document}

/-! ## The lines of a document -/

/-- The members of a document before its tables. -/
def headers (d : Document) : List (String × Json) :=
  let text (key : String) (s : Option String) := s.toList.map fun s => (key, Json.str s)
  ("version", .str d.version.text) :: text "title" d.title ++ text "info" d.info ++
    text "root" d.root

/-- The lines of the text of a document. -/
def rows (d : Document) : List (List Char) :=
  ['{'] ::
    (d.headers.map (memberLine · ++ [',']) ++ tableRows "elements" [','] d.elementTable ++
      tableRows "lattices" (commaBefore d.extras) d.latticeTable ++
      memberRows d.extras).map indent ++
  [['}']]

theorem members_eq (d : Document) : d.members = d.headers ++
    ("elements", .obj d.elementTable) :: ("lattices", .obj d.latticeTable) :: d.extras := by
  simp [members, headers]

theorem oneLine_of_mem_headers : ∀ m ∈ d.headers, OneLine m.2 := by
  intro m hm
  obtain ⟨s, hs⟩ : ∃ s, m.2 = .str s := by
    simp only [headers, List.mem_append, List.mem_cons, List.mem_map] at hm
    rcases hm with ((rfl | ⟨s, -, rfl⟩) | ⟨s, -, rfl⟩) | ⟨s, -, rfl⟩ <;> exact ⟨_, rfl⟩
  rw [hs]
  exact oneLine_str s

theorem arr_of_mem_elementTable : ∀ m ∈ d.elementTable, ∃ items, m.2 = .arr items := by
  intro m hm
  obtain ⟨e, -, rfl⟩ := List.mem_map.1 hm
  exact ⟨_, rfl⟩

theorem arr_of_mem_latticeTable : ∀ m ∈ d.latticeTable, ∃ items, m.2 = .arr items := by
  intro m hm
  obtain ⟨l, -, rfl⟩ := List.mem_map.1 hm
  exact ⟨_, rfl⟩

/-- The lines of a document are those of its raw form. -/
theorem rows_toJson (d : Document) : Json.rows [] [] d.toJson = d.rows := by
  have hline {table : List (String × Json)} (h : ∀ m ∈ table, ∃ items, m.2 = .arr items) :
      ∀ m ∈ table, OneLine m.2 := by
    intro m hm
    obtain ⟨items, heq⟩ := h m hm
    rw [heq]
    exact oneLine_arr items
  have hmembers : memberRows d.members = d.headers.map (memberLine · ++ [',']) ++
      tableRows "elements" [','] d.elementTable ++
      tableRows "lattices" (commaBefore d.extras) d.latticeTable ++ memberRows d.extras := by
    rw [members_eq, memberRows_append oneLine_of_mem_headers (List.cons_ne_nil _ _), memberRows,
      memberRows, rows_eq_tableRows _ _ (hline arr_of_mem_elementTable),
      rows_eq_tableRows _ _ (hline arr_of_mem_latticeTable)]
    simp only [List.append_assoc]
    rfl
  obtain ⟨m, ms, hcons⟩ : ∃ m ms, d.members = m :: ms := ⟨_, _, rfl⟩
  rw [rows, toJson, ← hmembers, hcons, Json.rows]
  rfl

/-! ## The text of a document -/

/-- The text of a document has a line for each element and one for each lattice, in their order.
Without its indent and the comma behind it, such a line is a name and its entry, and the entry is
read back from it. A text has no room for an entry in which groups nest too deep; it is refused for
that, and read by a reader that has the room. -/
structure Lines (d : Document) : Prop where
  split : d.encode.toList.splitOn '\n' = d.rows ++ [[]]
  elements : (((entryRows d.elementTable).map indent).map indent).map bare =
    d.elements.map fun e => memberLine (e.name, e.toJson)
  lattices : (((entryRows d.latticeTable).map indent).map indent).map bare =
    d.lattices.map fun l => memberLine (l.name, l.toJson)
  element : ∀ e ∈ d.elements,
    member (value maxDepth) (memberLine (e.name, e.toJson)) = .ok ((e.name, e.toJson), []) ∧
    parse e.toJson.entryText = .ok e.toJson
  lattice : ∀ l ∈ d.lattices,
    (∀ room, Item.depthOf l.items < room →
      member (value room) (memberLine (l.name, l.toJson)) = .ok ((l.name, l.toJson), [])) ∧
    (parse l.toJson.entryText = .ok l.toJson ↔ Item.depthOf l.items < maxDepth) ∧
    (maxDepth ≤ Item.depthOf l.items →
      ∃ fault, parse l.toJson.entryText = .error fault ∧ fault.flaw = .tooDeep)

theorem map_bare_indent {entries : List (String × Json)}
    (h : ∀ m ∈ entries, ∃ items, m.2 = .arr items) :
    (((entryRows entries).map indent).map indent).map bare = entries.map memberLine := by
  have hbare : bare ∘ indent = bare := funext bare_indent
  rw [List.map_map, hbare, List.map_map, hbare, map_bare_entryRows h]

theorem lines (d : Document) : d.Lines where
  split := by rw [encode, splitOn_layoutText, rows_toJson]
  elements := by
    rw [map_bare_indent arr_of_mem_elementTable, elementTable, List.map_map]
    rfl
  lattices := by
    rw [map_bare_indent arr_of_mem_latticeTable, latticeTable, List.map_map]
    rfl
  element e _ :=
    ⟨member_memberLine ((e.readable_toJson 0).mono (by decide)) e.name, e.parse_entry⟩
  lattice l _ :=
    ⟨fun _ h => member_memberLine (Lattice.readable_toJson_iff.2 h) l.name,
      Lattice.parse_entry_iff, Lattice.parse_entry_tooDeep⟩

/-- An encoded text ends in one line feed and has others only around the members of objects that
nothing but objects lie around, never in an array or a string; so the text of a document has a line
for each element and each lattice, from which the entry is read back if a text has room for it. -/
theorem lines_encode (v : Json) (s : String) (d : Document) :
    (v.layoutText.toList.splitOn '\n' = Json.rows [] [] v ++ [[]] ∧ [] ∉ Json.rows [] [] v ∧
      '\n' ∉ line .spaced v) ∧
    '\n' ∉ quote s ∧ d.Lines := by
  have hrow := row_of_mem_rows List.not_mem_nil List.not_mem_nil v
  have hline : '\n' ∉ line .spaced v := newline_notMem_line (by decide) (by decide) v
  exact ⟨⟨splitOn_layoutText v, fun h => (hrow [] h).ne_nil rfl, hline⟩,
    newline_notMem_quote s, d.lines⟩

theorem mem_wrappedBuilder (n : Nat) :
    ⟨"L", [Item.wrapped n (.name "D")]⟩ ∈ (wrappedBuilder n).document.lattices :=
  List.mem_singleton_self _

/-- `lines_encode` for groups that nest as deep as they may in an entry. -/
theorem lines_encode_wrappedBuilder : ∃ (b : Builder) (d : Document) (l : Lattice), b.Reachable ∧
    b.build = .ok d ∧ d.lattices = [l] ∧ parse l.toJson.entryText = .ok l.toJson := by
  have hbuild := build_wrappedBuilder (n := 126) (by decide +kernel)
  have hmem := mem_wrappedBuilder 126
  refine ⟨_, _, _, reachable_wrappedBuilder 126, hbuild, document_wrappedBuilder 126,
    ((lines_encode (.str "L") "L" _).2.2.lattice _ hmem).2.1.2 ?_⟩
  rw [depthOf_wrapped 126 _ hmem]
  decide

/-- One group more, and the entry of a document that was built cannot be read. -/
theorem not_parse_entry_of_build : ¬ ∀ (b : Builder) (d : Document), b.Reachable →
    b.build = .ok d → ∀ l ∈ d.lattices, parse l.toJson.entryText = .ok l.toJson := by
  intro hall
  have hbuild := build_wrappedBuilder (n := 127) (by decide +kernel)
  have hmem := mem_wrappedBuilder 127
  have hread := Lattice.parse_entry_iff.1
    (hall _ _ (reachable_wrappedBuilder 127) hbuild _ hmem)
  rw [depthOf_wrapped 127 _ hmem] at hread
  exact absurd hread (by decide)

end Document

end Beamline

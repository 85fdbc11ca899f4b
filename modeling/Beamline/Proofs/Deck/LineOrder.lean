import Beamline.Deck.Writer
import Beamline.Proofs.Document.Expansion

/-!
# The order of lines in a deck

* `Document.exists_lines_of_writeDeck` : the lines of a deck stand in the order of dependency;
* `Document.inDependencyOrder_stable` : this order has every lattice once, behind all that it names,
  and leaves the order of declaration only for the sake of a lattice that comes earlier.
-/

namespace Beamline

open Deck

variable {d : Document} {dl : Dialect}

namespace Deck

/-- Lines, each with its line feed. -/
def stacked (lines : List String) : String :=
  lines.foldr (fun l rest => l ++ "\n" ++ rest) ""

theorem stacked_cons (l : String) (lines : List String) :
    stacked (l :: lines) = l ++ "\n" ++ stacked lines :=
  rfl

theorem stacked_append (above below : List String) :
    stacked (above ++ below) = stacked above ++ stacked below := by
  induction above with
  | nil => exact String.empty_append.symm
  | cons l above ih =>
    rw [List.cons_append, stacked_cons, stacked_cons, ih]
    simp only [String.append_assoc]

end Deck

namespace Document

/-- The lines of a deck stand in the order of dependency. -/
theorem exists_lines_of_writeDeck {text : String} (h : d.writeDeck dl = .ok text) :
    ∃ above below, text = stacked (above ++ d.inDependencyOrder.map (latticeLine dl) ++ below) := by
  unfold writeDeck at h
  split at h
  · rename_i lines hlines
    cases h
    unfold deckLines at hlines
    cases hbeamline : d.beamline? with
    | none =>
      rw [hbeamline] at hlines
      cases hlines
    | some l =>
      rw [hbeamline] at hlines
      obtain ⟨root, -, hlines⟩ := bind_eq_ok.1 hlines
      obtain ⟨elements, -, hlines⟩ := bind_eq_ok.1 hlines
      cases hlines
      exact ⟨_, _, rfl⟩
  · cases h

/-- In the text of a deck the line of a lattice stands above the lines of all that come behind it
in the order of dependency. -/
theorem exists_line_above {text : String} (h : d.writeDeck dl = .ok text)
    {before behind : List Lattice} {l sub : Lattice}
    (horder : d.inDependencyOrder = before ++ l :: behind) (hsub : sub ∈ before) :
    ∃ above between below, text =
      above ++ latticeLine dl sub ++ "\n" ++ between ++ latticeLine dl l ++ "\n" ++ below := by
  obtain ⟨above, below, rfl⟩ := exists_lines_of_writeDeck h
  obtain ⟨first, second, rfl⟩ := List.append_of_mem hsub
  refine ⟨stacked (above ++ first.map (latticeLine dl)), stacked (second.map (latticeLine dl)),
    stacked (behind.map (latticeLine dl) ++ below), ?_⟩
  rw [horder]
  simp only [List.map_append, List.map_cons, stacked_append, stacked_cons, String.append_assoc]

/-- In the order of dependency of a document that has been decoded, built or read

* every lattice stands once,
* behind all lattices that it names at some depth, so that in the text of a deck the lines of these
  stand above its own,
* and before a lattice that is declared earlier it stands only if one that is declared no later than
  that one leads to it.

Lattices that name only earlier ones stay as they are declared. -/
theorem inDependencyOrder_stable (h : d.Obtained) :
    d.inDependencyOrder.Perm d.lattices ∧ d.inDependencyOrder.Nodup ∧
    (∀ before l behind, d.inDependencyOrder = before ++ l :: behind →
      ∀ sub ∈ d.lattices, sub.name ∈ l.references → sub ∈ before ∧
        ∀ dl text, d.writeDeck dl = .ok text → ∃ above between below, text =
          above ++ latticeLine dl sub ++ "\n" ++ between ++ latticeLine dl l ++ "\n" ++ below) ∧
    (∀ before a after, d.lattices = before ++ a :: after →
      ∀ listed rest, d.inDependencyOrder = listed ++ a :: rest → ∀ b ∈ after, b ∈ listed →
        ∃ c ∈ before ++ [a], Relation.TransGen d.Mentions c.name b.name) ∧
    ((∀ before l after, d.lattices = before ++ l :: after →
      ∀ sub ∈ d.lattices, sub.name ∈ l.references → sub ∈ before) →
        d.inDependencyOrder = d.lattices) := by
  have hlawful := lawful_of_obtained h
  have hperm := hlawful.inDependencyOrder_perm
  refine ⟨hperm, hperm.nodup_iff.2 hlawful.latticeNames.of_map, ?_, ?_, fun hearlier => ?_⟩
  · intro before l behind horder sub hsub href
    have hl : l ∈ d.lattices := hperm.mem_iff.1 (by simp [horder])
    have hbefore : sub ∈ before := by
      have hlayered := hlawful.layered_inDependencyOrder
      rw [horder, List.map_append, List.map_cons, List.reverse_append, List.reverse_cons,
        List.append_assoc] at hlayered
      have hmem := hlayered.of_append.1 sub.name ⟨l, hl, rfl, href, sub, hsub, rfl⟩
      obtain ⟨sub', hsub', heq⟩ := List.mem_map.1 (List.mem_reverse.1 hmem)
      have hsub'' : sub' ∈ d.lattices := hperm.mem_iff.1 (by simp [horder, hsub'])
      rwa [← List.inj_on_of_nodup_map hlawful.latticeNames hsub'' hsub heq]
    exact ⟨hbefore, fun dl text hwrite => exists_line_above hwrite horder hbefore⟩
  · intro before a after hdeclared listed rest horder b hafter hlisted
    exact hlawful.transGen_of_listed_before hdeclared horder hafter hlisted
  · apply hlawful.inDependencyOrder_eq_self
    -- by induction on the lattices that are declared last
    suffices hs : ∀ before after, d.lattices = before ++ after →
        Reach.Layered d.Mentions (before.map (·.name)).reverse from
      hs d.lattices [] (List.append_nil _).symm
    intro before
    induction before using List.reverseRecOn with
    | nil => exact fun _ _ => trivial
    | append_singleton before l ih =>
      intro after heq
      rw [List.append_assoc] at heq
      rw [List.map_append, List.reverse_append]
      refine ⟨?_, ih _ heq⟩
      rintro name ⟨l', hl', hname, href, sub, hsub, rfl⟩
      have hl : l ∈ d.lattices := by simp [heq]
      obtain rfl := List.inj_on_of_nodup_map hlawful.latticeNames hl' hl hname
      exact List.mem_reverse.2 (List.mem_map_of_mem (hearlier before _ after heq sub hsub href))

/-- Of two lattices the second comes first in the order of dependency, as the first names it. -/
theorem inDependencyOrder_foldedParts :
    ∃ c ∈ [(⟨"RING", [.name "CELL", .group [.name "D", .group [.name "CELL"]]]⟩ : Lattice)],
      Relation.TransGen foldedParts.document.Mentions c.name "CELL" := by
  have horder : foldedParts.document.inDependencyOrder =
      [⟨"CELL", [.name "Q", .name "D"]⟩,
        ⟨"RING", [.name "CELL", .group [.name "D", .group [.name "CELL"]]]⟩] := by
    with_unfolding_all rfl
  exact (inDependencyOrder_stable obtained_foldedParts).2.2.2.1 [] _
    [⟨"CELL", [.name "Q", .name "D"]⟩] lattices_foldedParts _ [] horder _
    (List.mem_singleton_self _) (List.mem_singleton_self _)

end Document

end Beamline

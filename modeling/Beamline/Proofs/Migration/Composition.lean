import Beamline.Migration
import Beamline.Proofs.Bind
import Beamline.Proofs.Table
import Beamline.Proofs.Version

/-!
# Migrations one after the other

* `run_trans` : the steps between two versions are those up to a version between them and those
  from there on;
* `lookup_version_of_run` : the last step leaves the version behind at which it ends;
* `migrate_trans` : so a migration can stop at any version on its way.
-/

namespace Beamline

namespace Migration

/-! ## The steps in their order -/

theorem steps_sorted : steps.Pairwise fun s t => s.1 < t.1 := by
  simp [steps]

/-- Among entries in order, those in a range are those below a point of it and those from there
on. -/
theorem filter_range_split {α : Type} {entries : List (Nat × α)}
    (h : entries.Pairwise fun s t => s.1 < t.1) {i j k : Nat} (hij : i ≤ j) (hjk : j ≤ k) :
    entries.filter (fun s => i ≤ s.1 && s.1 < k) =
      entries.filter (fun s => i ≤ s.1 && s.1 < j) ++
        entries.filter (fun s => j ≤ s.1 && s.1 < k) := by
  induction entries with
  | nil => rfl
  | cons s entries ih =>
    obtain ⟨hs, hentries⟩ := List.pairwise_cons.1 h
    rw [List.filter_cons, List.filter_cons, List.filter_cons, ih hentries]
    by_cases hlow : s.1 < j
    · have hfirst : (decide (i ≤ s.1) && decide (s.1 < k)) =
          (decide (i ≤ s.1) && decide (s.1 < j)) := by
        rw [Bool.eq_iff_iff]
        simp only [Bool.and_eq_true, decide_eq_true_eq]
        omega
      have hsecond : (decide (j ≤ s.1) && decide (s.1 < k)) = false := by
        rw [decide_eq_false (Nat.not_le.2 hlow), Bool.false_and]
      rw [hfirst, hsecond]
      split <;> rfl
    · have hfirst : (decide (i ≤ s.1) && decide (s.1 < j)) = false := by
        rw [decide_eq_false hlow, Bool.and_false]
      have hsecond : (decide (i ≤ s.1) && decide (s.1 < k)) =
          (decide (j ≤ s.1) && decide (s.1 < k)) := by
        rw [decide_eq_true (Nat.not_lt.1 hlow), decide_eq_true (hij.trans (Nat.not_lt.1 hlow))]
      -- all further entries lie behind the point too
      have hrest : entries.filter (fun t => i ≤ t.1 && t.1 < j) = [] := by
        refine List.filter_eq_nil_iff.2 fun t ht => ?_
        have hbehind : ¬ t.1 < j := fun hj => hlow ((hs t ht).trans hj)
        rw [decide_eq_false hbehind, Bool.and_false]
        exact Bool.false_ne_true
      rw [hfirst, hsecond, hrest]
      rfl

/-- The steps between two versions can be made in two parts. -/
theorem run_trans {source mid target : Nat} (hsource : source ≤ mid) (htarget : mid ≤ target)
    (doc : List (String × Json)) :
    run source target doc = (run source mid doc >>= run mid target) := by
  unfold run
  rw [filter_range_split steps_sorted hsource htarget, List.foldlM_append]

theorem run_self (n : Nat) (doc : List (String × Json)) : run n n doc = .ok doc := by
  have hnone : (steps.filter fun s => n ≤ s.1 && s.1 < n) = [] :=
    List.filter_eq_nil_iff.2 fun s _ => by simp
  rw [run, hnone]
  rfl

/-! ## The version left behind -/

theorem lookup_version_of_step {n : Nat}
    {step : List (String × Json) → Except Flaw (List (String × Json))} (h : (n, step) ∈ steps)
    {doc doc' : List (String × Json)} (hstep : step doc = .ok doc') :
    doc'.lookup "version" = some (versionEntry (n + 1)) := by
  have hstamp : ∀ (v : Json) (t : List (String × Json)),
      (Table.put "version" v t).lookup "version" = some v := fun v t => by
    rw [Table.lookup_put, if_pos rfl]
  simp only [steps, List.mem_cons, Prod.mk.injEq, List.not_mem_nil, or_false] at h
  rcases h with ⟨rfl, rfl⟩ | ⟨rfl, rfl⟩ | ⟨rfl, rfl⟩
  · obtain ⟨t, -, heq⟩ := bind_eq_ok.1 hstep
    cases heq
    exact hstamp _ t
  · obtain ⟨subs, -, hstep⟩ := bind_eq_ok.1 hstep
    obtain ⟨main, -, hstep⟩ := bind_eq_ok.1 hstep
    obtain ⟨t, -, heq⟩ := bind_eq_ok.1 hstep
    cases heq
    exact hstamp _ t
  · obtain ⟨t, -, heq⟩ := bind_eq_ok.1 hstep
    cases heq
    exact hstamp _ t

/-- From every version below the current one there is a step to the next. -/
theorem exists_step {n : Nat} (hn : n < 3) : ∃ step, (n, step) ∈ steps ∧ ∀ doc,
    run n (n + 1) doc = step doc := by
  have hsingle : ∀ step : List (String × Json) → Except Flaw (List (String × Json)),
      steps.filter (fun s => n ≤ s.1 && s.1 < n + 1) = [(n, step)] →
      ∀ doc, run n (n + 1) doc = step doc := by
    intro step hstep doc
    rw [run, hstep, List.foldlM_cons]
    exact bind_pure (step doc)
  match n, hn with
  | 0, _ => exact ⟨zeroToOne, by simp [steps], hsingle _ rfl⟩
  | 1, _ => exact ⟨oneToTwo, by simp [steps], hsingle _ rfl⟩
  | 2, _ => exact ⟨twoToThree, by simp [steps], hsingle _ rfl⟩

/-- The last of some steps leaves the version behind at which they end. -/
theorem lookup_version_of_run {source target : Nat} (hsource : source < target)
    (htarget : target ≤ 3) {doc doc' : List (String × Json)}
    (h : run source target doc = .ok doc') :
    doc'.lookup "version" = some (versionEntry target) := by
  obtain ⟨n, rfl⟩ : ∃ n, target = n + 1 := ⟨target - 1, by omega⟩
  obtain ⟨step, hmem, hstep⟩ := exists_step (n := n) (by omega)
  rw [run_trans (Nat.le_of_lt_succ hsource) (Nat.le_succ n)] at h
  obtain ⟨t, -, hlast⟩ := bind_eq_ok.1 h
  rw [hstep] at hlast
  exact lookup_version_of_step hmem hlast

theorem sourceVersion_of_lookup {doc : List (String × Json)} {n : Nat} (hn : n < 2 ^ 32)
    (h : doc.lookup "version" = some (versionEntry n)) : sourceVersion (.obj doc) = .ok n := by
  have hget : (Json.obj doc).get? "version" = some (.str (Version.mk n 0).text) := h
  have hparse : Version.parse? (Version.mk n 0).text = some ⟨n, 0⟩ :=
    Version.parse?_text hn (Nat.two_pow_pos 32)
  simp only [sourceVersion, hget, hparse]

end Migration

open Migration

/-! ## Migrations -/

variable {v w : Json} {source mid target : Nat}

theorem not_badRange (hsource : source ≤ target) (htarget : target ≤ 3) :
    ¬ (target < source ∨ Version.current.major < target) := by
  rw [not_or, not_lt, not_lt]
  exact ⟨hsource, htarget⟩

/-- Within the versions there are, a migration runs the steps on the members of an object. -/
theorem migrate_obj (hsource : source ≤ target) (htarget : target ≤ 3)
    (doc : List (String × Json)) :
    migrate (.obj doc) source target = (Migration.run source target doc).map .obj := by
  simp only [migrate, if_neg (not_badRange hsource htarget), Json.members?]

theorem migrate_of_members?_eq_none (hsource : source ≤ target) (htarget : target ≤ 3)
    (hv : v.members? = none) : migrate v source target = .error .notObject := by
  simp only [migrate, if_neg (not_badRange hsource htarget), hv]

theorem migrate_eq_bind (hsource : source ≤ mid) (hmid : mid ≤ target) (htarget : target ≤ 3)
    (v : Json) :
    migrate v source target = (migrate v source mid >>= fun w => migrate w mid target) := by
  cases v with
  | obj doc =>
    rw [migrate_obj (hsource.trans hmid) htarget, migrate_obj hsource (hmid.trans htarget),
      run_trans hsource hmid]
    cases Migration.run source mid doc with
    | error flaw => rfl
    | ok doc' => exact (migrate_obj hmid htarget doc').symm
  | _ =>
    rw [migrate_of_members?_eq_none (hsource.trans hmid) htarget rfl,
      migrate_of_members?_eq_none hsource (hmid.trans htarget) rfl]
    rfl

/-- A migration that succeeds is one within the versions there are. -/
theorem range_of_migrate (h : migrate v source target = .ok w) :
    source ≤ target ∧ target ≤ 3 := by
  by_contra hrange
  have hbad : target < source ∨ Version.current.major < target := by
    simp only [Version.current]
    omega
  simp only [migrate, if_pos hbad] at h
  cases h

/-- A migration that succeeds is one of an object. -/
theorem exists_run_of_migrate (h : migrate v source target = .ok w) :
    ∃ doc doc', v = .obj doc ∧ Migration.run source target doc = .ok doc' ∧ w = .obj doc' := by
  obtain ⟨hsource, htarget⟩ := range_of_migrate h
  cases v with
  | obj doc =>
    rw [migrate_obj hsource htarget] at h
    obtain ⟨doc', hrun, rfl⟩ := map_eq_ok.1 h
    exact ⟨doc, doc', rfl, hrun, rfl⟩
  | _ =>
    rw [migrate_of_members?_eq_none hsource htarget rfl] at h
    cases h

/-- What was migrated declares the version to which it was brought. -/
theorem sourceVersion_of_migrate (hsource : source < target) (h : migrate v source target = .ok w) :
    sourceVersion w = .ok target := by
  obtain ⟨-, htarget⟩ := range_of_migrate h
  obtain ⟨doc, doc', rfl, hrun, rfl⟩ := exists_run_of_migrate h
  exact sourceVersion_of_lookup (by omega) (lookup_version_of_run hsource htarget hrun)

/-- So does what was migrated from the version that it declared, even by no step. -/
theorem sourceVersion_of_migrate_source (hv : sourceVersion v = .ok source)
    (h : migrate v source target = .ok w) : sourceVersion w = .ok target := by
  rcases (range_of_migrate h).1.eq_or_lt with rfl | hlt
  · obtain ⟨doc, doc', rfl, hrun, rfl⟩ := exists_run_of_migrate h
    rw [run_self] at hrun
    cases hrun
    exact hv
  · exact sourceVersion_of_migrate hlt h

theorem migrateToCurrent_eq (hv : sourceVersion v = .ok source) :
    migrateToCurrent v = migrate v source 3 := by
  unfold migrateToCurrent
  rw [hv]
  rfl

/-- A migration can stop at any version on its way: going on from there has the same result as
going on at once, down to the order of the members and to what stops it. What is migrated declares
the version to which it was brought, so going on to the current version finds where to start. -/
theorem migrate_trans (v : Json) :
    (∀ source mid target, source ≤ mid → mid ≤ target → target ≤ 3 →
      migrate v source target = (migrate v source mid >>= fun w => migrate w mid target)) ∧
    (∀ source target w, source < target → migrate v source target = .ok w →
      sourceVersion w = .ok target) ∧
    ∀ n k, sourceVersion v = .ok n → n ≤ k → k ≤ 3 →
      (migrate v n k >>= migrateToCurrent) = migrateToCurrent v := by
  refine ⟨fun source mid target hsource hmid htarget => migrate_eq_bind hsource hmid htarget v,
    fun source target w hsource h => sourceVersion_of_migrate hsource h, ?_⟩
  intro n k hn hk hlatest
  rw [migrateToCurrent_eq hn, migrate_eq_bind hk hlatest le_rfl]
  cases hfirst : migrate v n k with
  | error flaw => rfl
  | ok w => exact migrateToCurrent_eq (sourceVersion_of_migrate_source hn hfirst)

/-- A document of version 1 with an element of a type that version 3 has no name for. -/
def wigglerMembers : List (String × Json) :=
  [("name", .str "ring"), ("version", .str " 1.4"), ("lattice", .arr [.str "W"]),
    ("elements", .obj [("W", .arr [.str "Wiggler", .obj [("description", .str "")]])])]

/-- The same brought to version 2, its members in the order in which the step leaves them. -/
def wigglerMembers₂ : List (String × Json) :=
  [("elements", .obj [("W", .arr [.str "Wiggler", .obj []])]), ("version", .str "2.0"),
    ("title", .str "ring"), ("lattices", .obj [("__MAIN__", .arr [.str "W"])]),
    ("root", .str "__MAIN__")]

/-- `migrate_trans` for a document that goes on from version 2 and stops on its way to version 3. -/
theorem migrate_trans_wiggler :
    migrate (.obj wigglerMembers) 1 3 =
      (migrate (.obj wigglerMembers) 1 2 >>= fun w => migrate w 2 3) ∧
    migrate (.obj wigglerMembers) 1 2 = .ok (.obj wigglerMembers₂) ∧
    sourceVersion (.obj wigglerMembers₂) = .ok 2 ∧
    (migrate (.obj wigglerMembers) 1 2 >>= migrateToCurrent) =
      migrateToCurrent (.obj wigglerMembers) ∧
    migrateToCurrent (.obj wigglerMembers) = .error (.unknownType "W" "Wiggler") := by
  have hsource : sourceVersion (.obj wigglerMembers) = .ok 1 := by decide +kernel
  have hstep : migrate (.obj wigglerMembers) 1 2 = .ok (.obj wigglerMembers₂) := rfl
  obtain ⟨htrans, hstamp, hcurrent⟩ := migrate_trans (.obj wigglerMembers)
  refine ⟨htrans 1 2 3 (by decide) (by decide) (by decide), hstep, hstamp 1 2 _ (by decide) hstep,
    hcurrent 1 2 hsource (by decide) (by decide), ?_⟩
  rfl

end Beamline

import Beamline.Validation

/-!
# Lists of findings that are passed

* `Passes` : no finding of a list is an error to the reader;
* `accepted_iff` : a document is accepted if its findings are passed.
-/

namespace Beamline.Validation

/-- No finding is an error: all are about unknown keys, and the reader is lenient. -/
def Passes (lenient : Bool) (fs : List Finding) : Prop :=
  ∀ f ∈ fs, lenient = true ∧ f.complaint.isUnknown = true

variable {lenient : Bool} {fs gs : List Finding} {α : Type}

@[simp] theorem passes_nil : Passes lenient [] :=
  fun _ h => absurd h List.not_mem_nil

@[simp] theorem passes_singleton {f : Finding} :
    Passes lenient [f] ↔ lenient = true ∧ f.complaint.isUnknown = true := by
  simp [Passes]

@[simp] theorem passes_append :
    Passes lenient (fs ++ gs) ↔ Passes lenient fs ∧ Passes lenient gs := by
  simp only [Passes, List.mem_append, or_imp]
  exact forall_and

@[simp] theorem passes_flatMap {xs : List α} {f : α → List Finding} :
    Passes lenient (xs.flatMap f) ↔ ∀ x ∈ xs, Passes lenient (f x) := by
  simp only [Passes, List.mem_flatMap]
  exact ⟨fun h x hx f hf => h f ⟨x, hx, hf⟩, fun h f ⟨x, hx, hf⟩ => h x hx f hf⟩

@[simp] theorem passes_map {xs : List α} {f : α → Finding} :
    Passes lenient (xs.map f) ↔
      ∀ x ∈ xs, lenient = true ∧ (f x).complaint.isUnknown = true := by
  simp [Passes]

@[simp] theorem passes_filterMap {xs : List α} {f : α → Option Finding} :
    Passes lenient (xs.filterMap f) ↔
      ∀ x ∈ xs, ∀ g, f x = some g → lenient = true ∧ g.complaint.isUnknown = true := by
  simp only [Passes, List.mem_filterMap]
  exact ⟨fun h x hx g hg => h g ⟨x, hx, hg⟩, fun h g ⟨x, hx, hg⟩ => h x hx g hg⟩

theorem isError_report_eq {f : Finding} :
    (f.report lenient).isError = !(lenient && f.complaint.isUnknown) := by
  unfold Finding.report Finding.severity Violation.isError
  cases lenient <;> cases f.complaint.isUnknown <;> rfl

theorem isError_report {f : Finding} :
    (f.report lenient).isError = false ↔ lenient = true ∧ f.complaint.isUnknown = true := by
  rw [isError_report_eq, Bool.not_eq_false', Bool.and_eq_true]

theorem accepted_iff {policy : Policy} {v : Json} : (validate policy v).accepted ↔
    Passes (isLenient policy.mode v) (findings policy.nesting v) := by
  unfold validate Report.ofViolations Report.accepted
  rw [List.isEmpty_iff, List.filter_eq_nil_iff, Passes, List.forall_mem_map]
  refine forall₂_congr fun f _ => ?_
  rw [Bool.not_eq_true, isError_report]

end Beamline.Validation

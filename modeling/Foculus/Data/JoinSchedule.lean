import Mathlib.Data.Finset.Lattice.Fold

namespace Foculus.Data

/-! State-based replication.

A replica merges another replica's state into its own.  Whatever the states
are, as long as some measure of them turns merging into a join, the measure of a
replica depends only on which initial states have reached it, not on the order,
the grouping or the number of the merges that brought them.
-/

variable {σ ι L : Type} [DecidableEq ι]

/-- `state` results from some schedule of merges that has incorporated exactly
the initial states in `reached`. -/
inductive Scheduled (merges : σ → σ → σ → Prop) (start : σ) (sources : ι → σ) :
    Finset ι → σ → Prop where
  | start : Scheduled merges start sources ∅ start
  | source (index : ι) : Scheduled merges start sources {index} (sources index)
  | merge {left right : Finset ι} {target source result : σ} :
      Scheduled merges start sources left target →
      Scheduled merges start sources right source →
      merges target source result →
      Scheduled merges start sources (left ∪ right) result

/-- If merging joins the measure and keeps an invariant, every schedule ends in
the join of the measures of the initial states it has incorporated. -/
theorem Scheduled.measure_eq [SemilatticeSup L] [OrderBot L] {merges : σ → σ → σ → Prop}
    {start : σ} {sources : ι → σ} {invariant : σ → Prop} {measure : σ → L}
    (initial : invariant start ∧ measure start = ⊥) (valid : ∀ index, invariant (sources index))
    (joins : ∀ {target source result}, invariant target → invariant source →
      merges target source result → invariant result ∧
        measure result = measure target ⊔ measure source)
    {reached : Finset ι} {state : σ} (scheduled : Scheduled merges start sources reached state) :
    invariant state ∧ measure state = reached.sup fun index => measure (sources index) := by
  induction scheduled with
  | start => exact ⟨initial.1, by rw [initial.2, Finset.sup_empty]⟩
  | source index => exact ⟨valid index, by rw [Finset.sup_singleton]⟩
  | merge _ _ merged targetIH sourceIH =>
      obtain ⟨targetValid, targetMeasure⟩ := targetIH
      obtain ⟨sourceValid, sourceMeasure⟩ := sourceIH
      obtain ⟨resultValid, resultMeasure⟩ := joins targetValid sourceValid merged
      exact ⟨resultValid, by rw [resultMeasure, targetMeasure, sourceMeasure, Finset.sup_union]⟩

end Foculus.Data

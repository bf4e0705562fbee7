import Mathlib.Data.List.Induction

namespace Foculus.Data

/-! # What holds all along a run

A run takes the inputs of a list one after the other; the states it passes through are
those after the prefixes of the list.
-/

section RunPrefixes

variable {σ α : Type} {step : σ → α → σ} {start : σ} {inputs : List α}

/-- If a step loses the property exactly when its input breaks it, the run has the
property throughout exactly if no input of the run does. -/
theorem throughout_iff (good : σ → Prop) (keeps : σ → α → Prop) (first : good start)
    (each : ∀ earlier input, earlier ++ [input] <+: inputs → good (earlier.foldl step start) →
      (good (step (earlier.foldl step start) input) ↔ keeps (earlier.foldl step start) input)) :
    (∀ earlier, earlier <+: inputs → good (earlier.foldl step start)) ↔
      ∀ earlier input, earlier ++ [input] <+: inputs → keeps (earlier.foldl step start) input := by
  have before {earlier : List α} {input : α} (within : earlier ++ [input] <+: inputs) :
      earlier <+: inputs := (List.prefix_append earlier [input]).trans within
  have next (earlier : List α) (input : α) : (earlier ++ [input]).foldl step start =
      step (earlier.foldl step start) input := by rw [List.foldl_append]; rfl
  constructor
  · intro throughout earlier input within
    have after := throughout (earlier ++ [input]) within
    rw [next] at after
    exact (each earlier input within (throughout earlier (before within))).mp after
  · intro kept earlier within
    induction earlier using List.reverseRecOn with
    | nil => exact first
    | append_singleton earlier input ih =>
        rw [next]
        exact (each earlier input within (ih (before within))).mpr (kept earlier input within)

end RunPrefixes

end Foculus.Data

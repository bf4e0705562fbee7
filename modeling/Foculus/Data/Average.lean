import Mathlib.Algebra.BigOperators.Group.List.Basic
import Mathlib.Algebra.BigOperators.Ring.List
import Mathlib.Algebra.Order.BigOperators.Group.List
import Mathlib.Algebra.Order.Field.Basic
import Mathlib.Tactic.Linarith
import Mathlib.Tactic.Ring

namespace Foculus.Data

/-! Averages of lists of numbers.

The spread of a list is the average of its squared deviations.  Taking entries
away can raise the average, by no more than the taken entries were below it.
-/

section Average

variable {K α : Type*} [Field K]

def average (values : List K) : K := values.sum / values.length

/-- The population variance. -/
def spread (values : List K) : K :=
  average (values.map fun value => (value - average values) ^ 2)

theorem sum_deviations (center : K) (values : List K) :
    (values.map fun value => (value - center) ^ 2).sum =
      (values.map fun value => value * value).sum - 2 * center * values.sum +
        values.length * (center * center) := by
  induction values with
  | nil => simp
  | cons value rest ih =>
      rw [List.map_cons, List.sum_cons, ih, List.map_cons, List.sum_cons, List.sum_cons,
        List.length_cons, Nat.cast_succ]
      ring

variable [LinearOrder K] [IsStrictOrderedRing K] {values : List K}

theorem length_cast_pos {entries : List α} (nonempty : entries ≠ []) : (0 : K) < entries.length :=
  Nat.cast_pos.mpr (List.length_pos_iff.mpr nonempty)

theorem sum_eq_average (nonempty : values ≠ []) : values.sum = values.length * average values := by
  rw [average, mul_div_cancel₀ _ (length_cast_pos nonempty).ne']

theorem spread_nonneg (values : List K) : 0 ≤ spread values := by
  refine div_nonneg (List.sum_nonneg ?_) (Nat.cast_nonneg _)
  intro deviation member
  obtain ⟨value, _, rfl⟩ := List.mem_map.mp member
  exact sq_nonneg _

/-- The average of the squares less the square of the average. -/
theorem spread_eq (nonempty : values ≠ []) :
    spread values = average (values.map fun value => value * value) -
      average values * average values := by
  have positive : (0 : K) < values.length := length_cast_pos nonempty
  have total := sum_eq_average nonempty
  rw [spread]
  generalize average values = mean at total ⊢
  rw [average, average, List.length_map, List.length_map, sum_deviations, total,
    eq_sub_iff_add_eq, div_add' _ _ _ positive.ne']
  congr 1
  ring

theorem le_average {least : K} (nonempty : values ≠ []) (bounded : ∀ value ∈ values, least ≤ value) :
    least ≤ average values := by
  rw [average, le_div_iff₀ (length_cast_pos nonempty), mul_comm, ← nsmul_eq_mul]
  exact List.card_nsmul_le_sum values least bounded

/-- What is left of a list exceeds its average by at most what the entries that were
taken away were below it. -/
theorem average_left_le {kept taken : List K} {least : K} (nonempty : kept ≠ [])
    (split : values.Perm (kept ++ taken)) (bounded : ∀ value ∈ taken, least ≤ value) :
    average kept - average values ≤
      (average values - least) * (taken.length / kept.length) := by
  have keptPositive : (0 : K) < kept.length := length_cast_pos nonempty
  have whole : values ≠ [] := by
    rintro rfl
    exact nonempty (List.append_eq_nil_iff.mp split.symm.eq_nil).1
  have sums : values.sum = kept.sum + taken.sum := by
    rw [split.sum_eq, List.sum_append]
  have lengths : (values.length : K) = kept.length + taken.length := by
    rw [split.length_eq, List.length_append, Nat.cast_add]
  have takenSum : taken.length * least ≤ taken.sum := by
    rw [← nsmul_eq_mul]
    exact List.card_nsmul_le_sum taken least bounded
  rw [sum_eq_average whole, sum_eq_average nonempty, lengths] at sums
  rw [mul_div_assoc', le_div_iff₀ keptPositive]
  linarith

theorem ratio_le {taken kept q : K} (positive : 0 < kept) (below : q < 1)
    (few : taken ≤ q * (kept + taken)) : taken / kept ≤ q / (1 - q) := by
  rw [div_le_div_iff₀ positive (sub_pos.mpr below)]
  linarith

end Average

end Foculus.Data

import Foculus.Crates.Number
import Foculus.Data.Average
import Foculus.Live.Finality
import Mathlib.Analysis.Real.Sqrt

namespace Foculus.Live.Exact

open Data

/-! # The finality rule without rounding

The functions of `src/finality.rs` once more, over any numbers.  Over the fixed-point
numbers of the crate they are the functions of the model; over the rationals they
decide the two inequalities of the protocol. -/

section Code

variable {α : Type} [Zero α] [One α] [Add α] [Sub α] [Mul α] [Div α] [IntCast α] [LE α] [LT α]
  [DecidableLE α] [DecidableLT α]

def mean (focus : List α) : α :=
  if focus.isEmpty then 0 else focus.foldl (· + ·) 0 / ((focus.length : Int) : α)

def variance (focus : List α) : α :=
  if focus.isEmpty then 0
  else
    let mu := mean focus
    let sq := focus.foldl (fun sq focus => sq + focus * focus) 0
    let meanSq := sq / ((focus.length : Int) : α)
    let muSq := mu * mu
    if muSq ≤ meanSq then meanSq - muSq else 0

def crossesThreshold (phi : α) (focus : List α) (kappaPrime : α) : Bool :=
  let mu := mean focus
  if phi ≤ mu then false
  else
    let excess := phi - mu
    decide (kappaPrime * kappaPrime * variance focus < excess * excess)

def certified (uncertMass gap kappaD c kappaPrime : α) : Bool :=
  let numer := (1 - kappaD) * gap
  let denom := c * (1 + kappaPrime)
  decide (uncertMass * denom < numer)

def finalizes (phi : α) (focus : List α) (uncertMass gap kappaD c kappaPrime : α) : Finality :=
  if crossesThreshold phi focus kappaPrime && certified uncertMass gap kappaD c kappaPrime
  then .final else .pending

end Code

section FixedPoint

variable (tru : Tru) (domain : Domain)

theorem mean_number : mean (α := tru.Number) domain.focus = domain.mean tru := rfl

theorem variance_number : variance (α := tru.Number) domain.focus = domain.variance tru := rfl

theorem crossesThreshold_number (phi kappaPrime : Fx) :
    crossesThreshold (α := tru.Number) phi domain.focus kappaPrime =
      Live.crossesThreshold tru phi domain kappaPrime := by
  change (if tru.le phi (domain.mean tru) = true then false
    else decide (tru.lt (tru.mul (tru.mul kappaPrime kappaPrime) (domain.variance tru))
      (tru.mul (phi - domain.mean tru) (phi - domain.mean tru)) = true)) = _
  rw [Bool.decide_eq_true]
  rfl

theorem certified_number (uncertMass gap kappaD c kappaPrime : Fx) :
    certified (α := tru.Number) uncertMass gap kappaD c kappaPrime =
      Live.certified tru uncertMass gap kappaD c kappaPrime :=
  Bool.decide_eq_true

theorem finalizes_number (phi uncertMass gap kappaD c kappaPrime : Fx) :
    finalizes (α := tru.Number) phi domain.focus uncertMass gap kappaD c kappaPrime =
      Live.finalizes tru phi domain uncertMass gap kappaD c kappaPrime := by
  change (if crossesThreshold (α := tru.Number) phi domain.focus kappaPrime &&
    certified (α := tru.Number) uncertMass gap kappaD c kappaPrime then Finality.final
    else Finality.pending) = _
  rw [crossesThreshold_number, certified_number]
  rfl

end FixedPoint

section Rationals

variable {focus : List ℚ}

theorem mean_eq (focus : List ℚ) : mean focus = average focus := by
  rw [mean, average, ← List.sum_eq_foldl, Int.cast_natCast]
  split_ifs with empty
  · rw [List.isEmpty_iff.mp empty, List.sum_nil, zero_div]
  · rfl

theorem foldl_squares (focus : List ℚ) :
    focus.foldl (fun sq focus => sq + focus * focus) 0 = (focus.map fun f => f * f).sum := by
  rw [List.sum_eq_foldl, List.foldl_map]

/-- The mean of the squares is never below the square of the mean. -/
theorem clamp_idle (nonempty : focus ≠ []) :
    average focus * average focus ≤ average (focus.map fun f => f * f) := by
  have spread := spread_nonneg focus
  rw [spread_eq nonempty] at spread
  exact sub_nonneg.mp spread

theorem variance_eq (nonempty : focus ≠ []) : variance focus = spread focus := by
  have meanSq : focus.foldl (fun sq focus => sq + focus * focus) 0 / ((focus.length : Int) : ℚ) =
      average (focus.map fun f => f * f) := by
    rw [foldl_squares, Int.cast_natCast, average, List.length_map]
  rw [variance, if_neg (by simpa using nonempty)]
  simp only [meanSq, mean_eq]
  rw [if_pos (clamp_idle nonempty), spread_eq nonempty]

/-- The comparison with a multiple of a root, without the root. -/
theorem mul_sqrt_lt_iff {kappa radicand : ℝ} (excess : ℝ) (nonneg : 0 ≤ kappa)
    (radicandNonneg : 0 ≤ radicand) :
    kappa * Real.sqrt radicand < excess ↔
      0 < excess ∧ kappa * kappa * radicand < excess * excess := by
  have product : 0 ≤ kappa * Real.sqrt radicand := mul_nonneg nonneg (Real.sqrt_nonneg _)
  have square : kappa * kappa * radicand =
      (kappa * Real.sqrt radicand) * (kappa * Real.sqrt radicand) := by
    rw [mul_mul_mul_comm, Real.mul_self_sqrt radicandNonneg]
  rw [square]
  constructor
  · intro below
    have positive := product.trans_lt below
    exact ⟨positive, mul_self_lt_mul_self product below⟩
  · rintro ⟨positive, squares⟩
    exact lt_of_mul_self_lt_mul_self₀ positive.le squares

theorem crossesThreshold_iff (nonempty : focus ≠ []) {phi kappaPrime : ℚ}
    (nonneg : 0 ≤ kappaPrime) :
    crossesThreshold phi focus kappaPrime = true ↔
      ((average focus : ℚ) : ℝ) + kappaPrime * Real.sqrt (spread focus : ℚ) < phi := by
  have threshold := mul_sqrt_lt_iff (phi - (average focus : ℚ)) (Rat.cast_nonneg.mpr nonneg)
    (Rat.cast_nonneg.mpr (spread_nonneg focus))
  rw [← lt_sub_iff_add_lt', threshold, crossesThreshold, mean_eq, variance_eq nonempty]
  split_ifs with low
  · have below : ¬ (0 : ℝ) < phi - (average focus : ℚ) := by
      rw [sub_pos, Rat.cast_lt]
      exact not_lt.mpr low
    simp [below]
  · have above : (0 : ℝ) < phi - (average focus : ℚ) := by
      rw [sub_pos, Rat.cast_lt]
      exact not_le.mp low
    rw [decide_eq_true_eq, and_iff_right above]
    norm_cast

theorem certified_iff {uncertMass gap kappaD c kappaPrime : ℚ} (positive : 0 < c)
    (nonneg : 0 ≤ kappaPrime) :
    certified uncertMass gap kappaD c kappaPrime = true ↔
      uncertMass < (1 - kappaD) * gap / (c * (1 + kappaPrime)) := by
  have denominator : 0 < c * (1 + kappaPrime) := mul_pos positive (by linarith)
  rw [lt_div_iff₀ denominator]
  exact decide_eq_true_iff

end Rationals

/-- A particle is final exactly when its focus exceeds the mean by `κ'` standard
deviations and the uncertified mass is below the safety bound. -/
theorem final_iff_protocol (focus : List ℚ) (nonempty : focus ≠ []) (kappaPrime : ℚ)
    (nonneg : 0 ≤ kappaPrime) :
    mean focus * mean focus ≤ average (focus.map fun f => f * f) ∧
    variance focus = spread focus ∧
    (∀ phi : ℚ, crossesThreshold phi focus kappaPrime = true ↔
      ((average focus : ℚ) : ℝ) + kappaPrime * Real.sqrt (spread focus : ℚ) < phi) ∧
    ∀ uncertMass gap kappaD c : ℚ, 0 < c →
      (certified uncertMass gap kappaD c kappaPrime = true ↔
        uncertMass < (1 - kappaD) * gap / (c * (1 + kappaPrime))) ∧
      ∀ phi : ℚ, finalizes phi focus uncertMass gap kappaD c kappaPrime = .final ↔
        ((average focus : ℚ) : ℝ) + kappaPrime * Real.sqrt (spread focus : ℚ) < phi ∧
          uncertMass < (1 - kappaD) * gap / (c * (1 + kappaPrime)) := by
  refine ⟨mean_eq focus ▸ clamp_idle nonempty, variance_eq nonempty,
    fun phi => crossesThreshold_iff nonempty nonneg, ?_⟩
  intro uncertMass gap kappaD c positive
  refine ⟨certified_iff positive nonneg, fun phi => ?_⟩
  rw [← crossesThreshold_iff nonempty nonneg, ← certified_iff positive nonneg, finalizes,
    ← Bool.and_eq_true]
  split_ifs with both
  · exact iff_of_true rfl both
  · exact iff_of_false nofun both

/-- Five particles at a quarter and one at two. -/
theorem final_iff_protocol_spike :
    let focus : List ℚ := [1 / 4, 1 / 4, 1 / 4, 1 / 4, 1 / 4, 2]
    ((average focus : ℚ) : ℝ) + ((1 : ℚ) : ℝ) * Real.sqrt (spread focus : ℚ) < ((2 : ℚ) : ℝ) ∧
      finalizes 2 focus 1 3 0 1 1 = .final := by
  intro focus
  have final : finalizes 2 focus 1 3 0 1 1 = .final := by decide +kernel
  have rule := final_iff_protocol focus (by decide) 1 (by decide)
  exact ⟨(((rule.2.2.2 1 3 0 1 (by decide)).2 2).mp final).1, final⟩

end Foculus.Live.Exact

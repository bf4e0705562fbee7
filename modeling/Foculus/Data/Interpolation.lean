import Mathlib.Data.List.GetD
import Mathlib.LinearAlgebra.Lagrange

namespace Foculus.Data

/-! Coefficient lists and Lagrange interpolation.

Programs keep a polynomial as the list of its coefficients, lowest degree
first.  `listPoly` is its meaning; `interpolation_sum` is Lagrange's formula in
the shape such programs compute it, one unnormalised basis polynomial for each
sample together with the inverse of its value there.
-/

open Polynomial

section Coefficients

variable {K : Type} [CommRing K]

/-- The polynomial whose coefficients a list holds, lowest degree first. -/
noncomputable def listPoly : List K → K[X]
  | [] => 0
  | coefficient :: rest => C coefficient + X * listPoly rest

@[simp] theorem listPoly_coeff (coefficients : List K) (degree : Nat) :
    (listPoly coefficients).coeff degree = coefficients.getD degree 0 := by
  induction coefficients generalizing degree with
  | nil => simp [listPoly]
  | cons coefficient rest ih =>
      cases degree with
      | zero => simp [listPoly]
      | succ degree => simp [listPoly, coeff_C_succ, ih, List.getElem?_cons_succ]

theorem listPoly_eval (coefficients : List K) (point : K) :
    (listPoly coefficients).eval point =
      coefficients.foldr (fun coefficient rest => coefficient + point * rest) 0 := by
  induction coefficients with
  | nil => simp [listPoly]
  | cons coefficient rest ih => simp [listPoly, ih]

theorem listPoly_degree_lt (coefficients : List K) :
    (listPoly coefficients).degree < (coefficients.length : WithBot Nat) := by
  rw [degree_lt_iff_coeff_zero]
  intro degree beyond
  rw [listPoly_coeff]
  exact List.getD_eq_default _ _ beyond

theorem listPoly_inj {left right : List K} (width : left.length = right.length)
    (same : listPoly left = listPoly right) : left = right := by
  apply List.ext_getElem width
  intro degree leftBound rightBound
  have coefficient := congrArg (fun poly => poly.coeff degree) same
  simpa [leftBound, rightBound] using coefficient

@[simp] theorem listPoly_replicate_zero (count : Nat) :
    listPoly (List.replicate count (0 : K)) = 0 := by
  ext degree
  by_cases inside : degree < count <;> simp [inside]

theorem listPoly_append_zeros (coefficients : List K) (count : Nat) :
    listPoly (coefficients ++ List.replicate count 0) = listPoly coefficients := by
  ext degree
  simp only [listPoly_coeff]
  by_cases inside : degree < coefficients.length
  · rw [List.getD_append _ _ _ _ inside]
  · have outside : coefficients.length ≤ degree := Nat.le_of_not_lt inside
    rw [List.getD_append_right _ _ _ _ outside, List.getD_eq_default coefficients _ outside]
    by_cases padded : degree - coefficients.length < count <;> simp [padded]

theorem listPoly_zipWith_add_mul (scale : K) {left right : List K}
    (width : left.length = right.length) :
    listPoly (List.zipWith (fun sum coefficient => sum + scale * coefficient) left right) =
      listPoly left + C scale * listPoly right := by
  induction left generalizing right with
  | nil =>
      cases right with
      | nil => simp [listPoly]
      | cons _ _ => simp at width
  | cons first rest ih =>
      cases right with
      | nil => simp at width
      | cons second tail =>
          have tailWidth : rest.length = tail.length := by simpa using width
          simp only [List.zipWith_cons_cons, listPoly, ih tailWidth, C_add, C_mul]
          ring

/-- Multiplying by a linear factor shifts the coefficients up and scales the
old ones into place. -/
theorem listPoly_mul_linear {before after : List K} (shift : K)
    (constant : after.getD 0 0 = before.getD 0 0 * shift)
    (higher : ∀ degree, after.getD (degree + 1) 0 =
      before.getD degree 0 + before.getD (degree + 1) 0 * shift) :
    listPoly after = listPoly before * (X + C shift) := by
  ext degree
  cases degree with
  | zero => simp only [mul_add, coeff_add, coeff_mul_X_zero, coeff_mul_C, listPoly_coeff,
      constant, zero_add]
  | succ degree => simp only [mul_add, coeff_add, coeff_mul_X, coeff_mul_C, listPoly_coeff, higher]

end Coefficients

section Interpolation

variable {K : Type} [Field K] [DecidableEq K]

/-- The part of Lagrange's formula that the sample at `point` contributes: the
product vanishing at all other samples, scaled to take `value` at `point`. -/
noncomputable def lagrangeTerm (points : List K) (point value : K) : K[X] :=
  C (value * ((points.erase point).map (point - ·)).prod⁻¹) *
    ((points.erase point).map (fun other => X - C other)).prod

theorem lagrangeTerm_eq_basis {points : List K} (distinct : points.Nodup) (point value : K) :
    lagrangeTerm points point value =
      C value * Lagrange.basis points.toFinset id point := by
  have others : (points.erase point).Nodup := distinct.erase point
  have erased : points.toFinset.erase point = (points.erase point).toFinset := by
    ext other
    simp [distinct.mem_erase_iff]
  rw [lagrangeTerm, Lagrange.basis, erased, List.prod_toFinset _ others]
  simp only [Lagrange.basisDivisor, id_eq]
  rw [List.prod_map_mul, C_mul, mul_assoc]
  congr 2
  induction points.erase point with
  | nil => simp
  | cons other rest ih => simp [C_mul, ih, mul_comm]

/-- Sampling a polynomial of degree below the number of distinct points and
summing Lagrange's terms returns the polynomial. -/
theorem interpolation_sum {points : List K} (distinct : points.Nodup) (poly : K[X])
    (small : poly.degree < (points.length : WithBot Nat)) :
    (points.map (fun point => lagrangeTerm points point (poly.eval point))).sum = poly := by
  have size : points.toFinset.card = points.length := List.toFinset_card_of_nodup distinct
  have interpolated := Lagrange.eq_interpolate (s := points.toFinset) (v := id)
    (fun _ _ _ _ same => same) (f := poly) (by rw [size]; exact small)
  simp only [lagrangeTerm_eq_basis distinct]
  rw [← List.sum_toFinset _ distinct]
  exact interpolated.symm

end Interpolation

end Foculus.Data

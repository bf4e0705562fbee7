import Foculus.Erasure.Coding

namespace Foculus.Erasure

open Data Polynomial

private theorem foldl_zipIdx_skip {α β : Type} (step : β → α → β) (values : List α)
    (start i : Nat) (init : β) :
    (values.zipIdx start).foldl (fun acc (value, j) => if j ≠ start + i then step acc value else acc)
      init = (values.eraseIdx i).foldl step init := by
  induction values generalizing start i init with
  | nil => rfl
  | cons value rest ih =>
      cases i with
      | zero =>
          -- past the skipped entry every position differs from `start`
          have later : ∀ (offset : Nat) (acc : β), start < offset →
              (rest.zipIdx offset).foldl
                (fun acc (value, j) => if j ≠ start then step acc value else acc) acc =
              rest.foldl step acc := by
            clear ih
            induction rest with
            | nil => intros; rfl
            | cons next rest restIH =>
                intro offset acc past
                have differs : offset ≠ start := by omega
                simp only [List.zipIdx_cons, List.foldl_cons, ne_eq, differs, not_false_eq_true,
                  if_true]
                exact restIH (offset + 1) _ (by omega)
          simp only [List.zipIdx_cons, List.foldl_cons, Nat.add_zero, ne_eq, not_true_eq_false,
            if_false, List.eraseIdx_zero, List.tail_cons]
          exact later (start + 1) init (by omega)
      | succ i =>
          have differs : start ≠ start + (i + 1) := by omega
          have shifted : start + (i + 1) = start + 1 + i := by omega
          simp only [List.zipIdx_cons, List.foldl_cons, ne_eq, differs, not_false_eq_true, if_true,
            List.eraseIdx_cons_succ]
          rw [shifted]
          exact ih (start + 1) i (step init value)

/-- A loop over all positions that skips one of them folds the list with that
entry erased. -/
theorem foldl_range_skip {β : Type} (step : β → Goldilocks → β) (values : List Goldilocks)
    (i : Nat) (init : β) :
    (List.range values.length).foldl
      (fun acc j => if j ≠ i then step acc (values.getD j 0) else acc) init =
      (values.eraseIdx i).foldl step init := by
  have positions : List.range values.length = values.zipIdx.map Prod.snd := by
    simp [List.zipIdx_map_snd, List.range_eq_range']
  have skip := foldl_zipIdx_skip step values 0 i init
  rw [← skip, positions, List.foldl_map]
  apply List.foldl_ext
  intro acc entry member
  obtain ⟨value, j⟩ := entry
  have found := List.mem_zipIdx_iff_getElem?.mp member
  simp [found]

theorem lagrangeDenominator_eq (points : List Goldilocks) (i : Nat) :
    lagrangeDenominator points i =
      ((points.eraseIdx i).map (points.getD i 0 - ·)).prod := by
  unfold lagrangeDenominator
  rw [foldl_range_skip (fun denom point => denom * (points.getD i 0 - point)),
    List.prod_eq_foldl, List.foldl_map]

private theorem descending_getD (negX : Goldilocks) (top : Nat) (basis : List Goldilocks)
    (room : top < basis.length) (degree : Nat) :
    ((List.range' 1 top).reverse.foldl
      (fun basis d => basis.set d (basis.getD (d - 1) 0 + basis.getD d 0 * negX)) basis).getD
        degree 0 =
      if 1 ≤ degree ∧ degree ≤ top then
        basis.getD (degree - 1) 0 + basis.getD degree 0 * negX
      else basis.getD degree 0 := by
  induction top generalizing basis with
  | zero =>
      rw [if_neg (by omega)]
      rfl
  | succ top ih =>
      have next : List.range' 1 (top + 1) = List.range' 1 top ++ [top + 1] := by
        rw [List.range'_concat]
        simp [Nat.add_comm]
      rw [next, List.reverse_append, List.reverse_singleton, List.singleton_append,
        List.foldl_cons, ih _ (by rw [List.length_set]; omega)]
      -- the first write goes to position `top + 1`, which no later step reads
      have written (position : Nat) (value : Goldilocks) :
          (basis.set (top + 1) value).getD position 0 =
            if position = top + 1 then value else basis.getD position 0 := by
        by_cases here : position = top + 1
        · subst position
          simp [room]
        · simp [List.getD_eq_getElem?_getD, Ne.symm here, here]
      simp only [written, Nat.add_sub_cancel]
      by_cases last : degree = top + 1
      · subst degree
        simp
      · by_cases inside : 1 ≤ degree ∧ degree ≤ top
        · have wider : 1 ≤ degree ∧ degree ≤ top + 1 := by omega
          have earlier : degree - 1 ≠ top + 1 := by omega
          simp only [inside, wider, and_self, if_true, earlier, if_false, last]
        · have outside : ¬ (1 ≤ degree ∧ degree ≤ top + 1) := by omega
          simp only [inside, outside, if_false, last]

@[simp] theorem mulLinear_length (negX : Goldilocks) (deg : Nat) (basis : List Goldilocks) :
    (mulLinear negX deg basis).length = basis.length := by
  have loop (positions : List Nat) (start : List Goldilocks) :
      (positions.foldl (fun basis d =>
        basis.set d (basis.getD (d - 1) 0 + basis.getD d 0 * negX)) start).length =
        start.length := by
    induction positions generalizing start with
    | nil => rfl
    | cons d rest ih => rw [List.foldl_cons, ih, List.length_set]
  simp only [mulLinear, List.length_set, loop]

theorem mulLinear_getD (negX : Goldilocks) {deg : Nat} {basis : List Goldilocks}
    (room : deg + 1 < basis.length) (zeros : ∀ degree, deg < degree → basis.getD degree 0 = 0) :
    (mulLinear negX deg basis).getD 0 0 = basis.getD 0 0 * negX ∧
      ∀ degree, (mulLinear negX deg basis).getD (degree + 1) 0 =
        basis.getD degree 0 + basis.getD (degree + 1) 0 * negX := by
  let shifted := (List.range' 1 (deg + 1)).reverse.foldl
    (fun basis d => basis.set d (basis.getD (d - 1) 0 + basis.getD d 0 * negX)) basis
  have entry := descending_getD negX (deg + 1) basis room
  have size : shifted.length = basis.length := by
    have preserved := mulLinear_length negX deg basis
    simpa only [mulLinear, List.length_set] using preserved
  have constant : shifted.getD 0 0 = basis.getD 0 0 := by rw [entry 0, if_neg (by omega)]
  change (shifted.set 0 (shifted.getD 0 0 * negX)).getD 0 0 = _ ∧
    ∀ degree, (shifted.set 0 (shifted.getD 0 0 * negX)).getD (degree + 1) 0 = _
  constructor
  · have nonempty : 0 < shifted.length := by omega
    rw [constant]
    simp [nonempty]
  · intro degree
    have kept : (shifted.set 0 (shifted.getD 0 0 * negX)).getD (degree + 1) 0 =
        shifted.getD (degree + 1) 0 := by
      simp [List.getD_eq_getElem?_getD]
    rw [kept, entry (degree + 1)]
    by_cases inside : degree + 1 ≤ deg + 1
    · simp [inside]
    · -- above the degree both the old and the new coefficient vanish
      have outside : ¬ (1 ≤ degree + 1 ∧ degree + 1 ≤ deg + 1) := by omega
      rw [if_neg outside, zeros degree (by omega), zeros (degree + 1) (by omega)]
      ring

theorem foldl_mulLinear (others basis : List Goldilocks) (deg : Nat)
    (room : deg + others.length < basis.length)
    (zeros : ∀ degree, deg < degree → basis.getD degree 0 = 0) :
    let result := others.foldl
      (fun (basis, deg) point => (mulLinear (-point) deg basis, deg + 1)) (basis, deg)
    result.1.length = basis.length ∧
      listPoly result.1 = listPoly basis * (others.map fun point => X - C point).prod := by
  induction others generalizing basis deg with
  | nil => simp
  | cons point rest ih =>
      have roomHere : deg + 1 < basis.length := by
        simp only [List.length_cons] at room
        omega
      obtain ⟨constant, higher⟩ := mulLinear_getD (-point) roomHere zeros
      have factor : listPoly (mulLinear (-point) deg basis) = listPoly basis * (X + C (-point)) :=
        listPoly_mul_linear (-point) constant higher
      have zerosNext : ∀ degree, deg + 1 < degree →
          (mulLinear (-point) deg basis).getD degree 0 = 0 := by
        intro degree beyond
        obtain ⟨lower, rfl⟩ : ∃ lower, degree = lower + 1 := ⟨degree - 1, by omega⟩
        rw [higher lower, zeros lower (by omega), zeros (lower + 1) (by omega)]
        ring
      obtain ⟨size, product⟩ := ih (mulLinear (-point) deg basis) (deg + 1)
        (by simp only [List.length_cons] at room; rw [mulLinear_length]; omega) zerosNext
      refine ⟨by rw [List.foldl_cons, size, mulLinear_length], ?_⟩
      rw [List.foldl_cons, product, factor, List.map_cons, List.prod_cons, C_neg, ← sub_eq_add_neg,
        mul_assoc]

theorem lagrangeBasis_spec {points : List Goldilocks} {i : Nat} (bound : i < points.length) :
    (lagrangeBasis points i).1.length = points.length ∧
      listPoly (lagrangeBasis points i).1 =
        ((points.eraseIdx i).map fun point => X - C point).prod := by
  let one := (List.replicate points.length (0 : Goldilocks)).set 0 1
  have size : one.length = points.length := by simp [one]
  have oneEntry (degree : Nat) (positive : 0 < degree) : one.getD degree 0 = 0 := by
    by_cases inside : degree < points.length <;>
      simp [one, List.getD_eq_getElem?_getD, positive.ne, inside]
  have onePoly : listPoly one = 1 := by
    ext degree
    rw [listPoly_coeff, coeff_one]
    by_cases zero : degree = 0
    · subst degree
      simp [one, show 0 < points.length by omega]
    · rw [oneEntry degree (Nat.pos_of_ne_zero zero), if_neg zero]
  have erased : (points.eraseIdx i).length = points.length - 1 := by
    rw [List.length_eraseIdx, if_pos bound]
  have loop := foldl_range_skip
    (fun (state : List Goldilocks × Nat) point => (mulLinear (-point) state.2 state.1, state.2 + 1))
    points i (one, 0)
  have unfolded : lagrangeBasis points i = (points.eraseIdx i).foldl
      (fun (basis, deg) point => (mulLinear (-point) deg basis, deg + 1)) (one, 0) := loop
  obtain ⟨length, product⟩ := foldl_mulLinear (points.eraseIdx i) one 0 (by omega)
    oneEntry
  rw [unfolded]
  exact ⟨length.trans size, by rw [product, onePoly, one_mul]⟩

theorem lagrange_accumulates {points : List Goldilocks} (distinct : points.Nodup)
    (values : List Goldilocks) (count : Nat) (bound : count ≤ points.length) :
    let result := (List.range count).foldl
      (fun result i =>
        let scale := values.getD i 0 * (lagrangeDenominator points i)⁻¹
        List.zipWith (fun sum coefficient => sum + scale * coefficient) result
          (lagrangeBasis points i).1) (List.replicate points.length 0)
    result.length = points.length ∧
      listPoly result = ((List.range count).map fun i =>
        lagrangeTerm points (points.getD i 0) (values.getD i 0)).sum := by
  induction count with
  | zero => simp
  | succ count ih =>
      obtain ⟨size, total⟩ := ih (by omega)
      obtain ⟨basisSize, basisPoly⟩ := lagrangeBasis_spec (show count < points.length by omega)
      have here : points.getD count 0 = points[count] := List.getD_eq_getElem _ _ (by omega)
      have erased : points.eraseIdx count = points.erase (points.getD count 0) := by
        rw [here, distinct.erase_getElem count]
      rw [List.range_succ, List.foldl_append, List.map_append, List.sum_append]
      simp only [List.foldl_cons, List.foldl_nil, List.map_cons, List.map_nil, List.sum_cons,
        List.sum_nil, add_zero]
      refine ⟨by rw [List.length_zipWith, size, basisSize, Nat.min_self], ?_⟩
      rw [listPoly_zipWith_add_mul _ (size.trans basisSize.symm), total, basisPoly,
        lagrangeDenominator_eq, erased, lagrangeTerm]

/-- Interpolating the samples of a polynomial at as many distinct points as it
has coefficients returns the coefficients. -/
theorem lagrangeInterpolate_samples {points coefficients : List Goldilocks}
    (distinct : points.Nodup) (width : coefficients.length = points.length) :
    lagrangeInterpolate points (points.map fun point => (listPoly coefficients).eval point) =
      coefficients := by
  let poly := listPoly coefficients
  obtain ⟨size, total⟩ := lagrange_accumulates distinct
    (points.map fun point => poly.eval point) points.length le_rfl
  have terms : ((List.range points.length).map fun i => lagrangeTerm points (points.getD i 0)
        ((points.map fun point => poly.eval point).getD i 0)) =
      points.map fun point => lagrangeTerm points point (poly.eval point) := by
    apply List.ext_getElem (by simp)
    intro i _ bound
    have inside : i < points.length := by simpa using bound
    simp [inside]
  rw [terms, interpolation_sum distinct poly (width ▸ listPoly_degree_lt coefficients)] at total
  exact listPoly_inj (size.trans width.symm) total

end Foculus.Erasure

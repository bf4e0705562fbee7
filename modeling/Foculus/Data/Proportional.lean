import Mathlib.Algebra.BigOperators.Group.List.Basic
import Mathlib.Algebra.GroupWithZero.Nat

namespace Foculus.Data

/-! An amount split in proportion to weights, each part rounded down.

The parts fall short of the amount by less than one for each weight that is not
zero; `favoured` is the position that makes up for it. -/

def floorPart (amount total weight : Nat) : Nat := weight * amount / total

def floorParts (amount total : Nat) (weights : List Nat) : List Nat :=
  weights.map (floorPart amount total)

@[simp] theorem floorPart_zero (amount total : Nat) : floorPart amount total 0 = 0 := by
  rw [floorPart, Nat.zero_mul, Nat.zero_div]

@[simp] theorem floorParts_cons (amount total weight : Nat) (rest : List Nat) :
    floorParts amount total (weight :: rest) =
      floorPart amount total weight :: floorParts amount total rest := rfl

@[simp] theorem floorParts_length (amount total : Nat) (weights : List Nat) :
    (floorParts amount total weights).length = weights.length :=
  List.length_map _

/-- What all parts are worth, and what each division drops. -/
theorem floorParts_sum_mul (amount total : Nat) (weights : List Nat) :
    total * (floorParts amount total weights).sum +
      (weights.map fun weight => weight * amount % total).sum = weights.sum * amount := by
  induction weights with
  | nil => simp [floorParts]
  | cons weight rest ih =>
      have here := Nat.div_add_mod (weight * amount) total
      simp only [floorParts_cons, List.map_cons, List.sum_cons, Nat.mul_add, Nat.add_mul] at ih ⊢
      rw [floorPart]
      omega

theorem floorParts_sum_le (amount : Nat) {total : Nat} {weights : List Nat}
    (positive : 0 < total) (within : weights.sum ≤ total) : (floorParts amount total weights).sum ≤ amount := by
  have worth := floorParts_sum_mul amount total weights
  have bounded := Nat.mul_le_mul_right amount within
  exact Nat.le_of_mul_le_mul_left (Nat.le_trans (Nat.le.intro worth) bounded) positive

/-- A division drops less than the total, and nothing for a weight of zero. -/
theorem dropped_sum_le (amount : Nat) {total : Nat} (positive : 0 < total)
    (weights : List Nat) :
    (weights.map fun weight => weight * amount % total).sum ≤
      weights.countP (0 < ·) * (total - 1) := by
  induction weights with
  | nil => simp
  | cons weight rest ih =>
      have here := Nat.mod_lt (weight * amount) positive
      rw [List.map_cons, List.sum_cons, List.countP_cons, Nat.add_mul]
      rcases Nat.eq_zero_or_pos weight with rfl | weighted
      · simpa using ih
      · simp only [weighted, decide_true, if_true]
        omega

theorem countP_pos_of_sum_pos {weights : List Nat} (positive : 0 < weights.sum) :
    0 < weights.countP (0 < ·) := by
  rw [List.countP_pos_iff]
  by_contra none
  push Not at none
  have zero : weights.sum = 0 := List.sum_eq_zero fun weight member => by
    simpa using none weight member
  exact absurd zero (Nat.ne_of_gt positive)

/-- The parts miss less than one for each weight that is not zero. -/
theorem lt_floorParts_sum (amount : Nat) {weights : List Nat} (positive : 0 < weights.sum) :
    amount < (floorParts amount weights.sum weights).sum + weights.countP (0 < ·) := by
  have worth := floorParts_sum_mul amount weights.sum weights
  have dropped := dropped_sum_le amount positive weights
  have some := countP_pos_of_sum_pos positive
  refine Nat.lt_of_mul_lt_mul_left (a := weights.sum) ?_
  have short : weights.countP (0 < ·) * (weights.sum - 1) <
      weights.sum * weights.countP (0 < ·) := by
    rw [Nat.mul_comm]
    exact Nat.mul_lt_mul_of_pos_right (Nat.sub_lt positive Nat.one_pos) some
  rw [Nat.mul_add]
  omega

/-- Parts that add up to the amount drop nothing. -/
theorem floorPart_mul_of_sum_eq {amount : Nat} {weights : List Nat}
    (exact : (floorParts amount weights.sum weights).sum = amount) {weight : Nat}
    (member : weight ∈ weights) :
    weights.sum * floorPart amount weights.sum weight = weight * amount := by
  have worth := floorParts_sum_mul amount weights.sum weights
  have nothing : (weights.map fun weight => weight * amount % weights.sum).sum = 0 := by
    rw [exact] at worth
    omega
  have kept : weight * amount % weights.sum = 0 :=
    List.sum_eq_zero_iff_forall_eq_nat.mp nothing _ (List.mem_map_of_mem member)
  have here := Nat.div_add_mod (weight * amount) weights.sum
  rw [floorPart]
  omega

/-- The position that is paid the rest: the last one when it has weight, else
the first one that has. -/
def favoured (weights : List Nat) : Nat :=
  if 0 < weights.getLast?.getD 0 then weights.length - 1 else weights.findIdx (0 < ·)

theorem favoured_weight {weights : List Nat} (positive : 0 < weights.sum) :
    ∃ weight, weights[favoured weights]? = some weight ∧ 0 < weight := by
  rw [favoured]
  split_ifs with last
  · rw [← List.getLast?_eq_getElem?]
    cases found : weights.getLast? with
    | none => simp [found] at last
    | some weight => exact ⟨weight, rfl, by simpa [found] using last⟩
  · obtain ⟨weight, member, weighted⟩ := List.countP_pos_iff.mp (countP_pos_of_sum_pos positive)
    have some : ∃ weight ∈ weights, decide (0 < weight) = true := ⟨weight, member, weighted⟩
    have found := List.findIdx_lt_length_of_exists some
    exact ⟨_, List.getElem?_eq_getElem found, of_decide_eq_true (List.findIdx_getElem (w := found))⟩

/-- The rounded parts, with the rest at the favoured position. -/
def favouredParts (amount : Nat) (weights : List Nat) : List Nat :=
  (floorParts amount weights.sum weights).modify (favoured weights)
    (· + (amount - (floorParts amount weights.sum weights).sum))

section Favoured

variable {amount : Nat} {weights : List Nat} {position weight part : Nat}

@[simp] theorem modify_add_zero (parts : List Nat) (position : Nat) :
    parts.modify position (· + 0) = parts :=
  List.modify_id position parts

theorem sum_modify_add {parts : List Nat} (inside : position < parts.length) (rest : Nat) :
    (parts.modify position (· + rest)).sum = parts.sum + rest := by
  induction parts generalizing position with
  | nil => exact absurd inside (Nat.not_lt_zero _)
  | cons part others ih =>
      cases position with
      | zero => rw [List.modify_zero_cons, List.sum_cons, List.sum_cons, Nat.add_right_comm]
      | succ position =>
          rw [List.modify_succ_cons, List.sum_cons, List.sum_cons,
            ih (Nat.lt_of_succ_lt_succ inside), Nat.add_assoc]

theorem favouredParts_sum (positive : 0 < weights.sum) :
    (favouredParts amount weights).sum = amount := by
  obtain ⟨_, found, _⟩ := favoured_weight positive
  have inside : favoured weights < (floorParts amount weights.sum weights).length := by
    rw [floorParts_length]
    exact (List.getElem?_eq_some_iff.mp found).1
  have within := floorParts_sum_le amount positive (Nat.le_refl weights.sum)
  rw [favouredParts, sum_modify_add inside]
  omega

/-- The part of a weight: rounded down, and the rest on top if it is favoured. -/
theorem favouredParts_getElem? (weighted : weights[position]? = some weight) :
    (favouredParts amount weights)[position]? =
      some (floorPart amount weights.sum weight + if favoured weights = position then
        amount - (floorParts amount weights.sum weights).sum else 0) := by
  rw [favouredParts, List.getElem?_modify, floorParts, List.getElem?_map, weighted]
  split_ifs <;> rfl

/-- Of an amount that is not zero, a part is zero exactly when its weight is
rounded away and the rest goes elsewhere. -/
theorem favouredPart_eq_zero_iff (positive : 0 < weights.sum) (funded : amount ≠ 0)
    (weighted : weights[position]? = some weight)
    (paid : (favouredParts amount weights)[position]? = some part) :
    part = 0 ↔ weight * amount < weights.sum ∧ position ≠ favoured weights := by
  rw [favouredParts_getElem? weighted, Option.some.injEq] at paid
  have rounded : floorPart amount weights.sum weight = 0 ↔ weight * amount < weights.sum := by
    rw [floorPart, Nat.div_eq_zero_iff]
    omega
  rw [← rounded]
  split_ifs at paid with here
  · refine ⟨fun nothing => ?_, fun elsewhere => absurd here.symm elsewhere.2⟩
    obtain ⟨own, found, ownWeight⟩ := favoured_weight positive
    have same : own = weight := by
      rw [here, weighted] at found
      exact (Option.some.inj found).symm
    have within := floorParts_sum_le amount positive (Nat.le_refl weights.sum)
    have exact : (floorParts amount weights.sum weights).sum = amount := by omega
    have kept := floorPart_mul_of_sum_eq exact (List.mem_of_getElem? weighted)
    have zero : floorPart amount weights.sum weight = 0 := by omega
    rw [zero, Nat.mul_zero, ← same] at kept
    exact absurd kept.symm (Nat.mul_ne_zero (Nat.ne_of_gt ownWeight) funded)
  · rw [Nat.add_zero] at paid
    rw [← paid]
    exact ⟨fun nothing => ⟨nothing, fun other => here other.symm⟩, And.left⟩

end Favoured

end Foculus.Data

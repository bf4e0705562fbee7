import Mathlib.Algebra.BigOperators.Group.List.Basic
import Mathlib.Algebra.GroupWithZero.Nat

namespace Foculus.Data

/-! Machine arithmetic that fails where it would overflow or wrap. -/

/-- The value as a number of `width` bits. -/
def fit (width value : Nat) : Option Nat := if value < 2 ^ width then some value else none

def checkedSub (left right : Nat) : Option Nat :=
  if right ≤ left then some (left - right) else none

/-- The sum of a list from the front, each partial sum a number of `width` bits. -/
def checkedSumFrom (width : Nat) : List Nat → Nat → Option Nat
  | [], sum => some sum
  | value :: rest, sum => (fit width (sum + value)).bind (checkedSumFrom width rest)

def checkedSum (width : Nat) (values : List Nat) : Option Nat := checkedSumFrom width values 0

theorem fit_eq {width value : Nat} (fits : value < 2 ^ width) : fit width value = some value :=
  if_pos fits

theorem checkedSub_eq {left right : Nat} (enough : right ≤ left) :
    checkedSub left right = some (left - right) :=
  if_pos enough

theorem checkedSub_of_lt {left right : Nat} (short : left < right) : checkedSub left right = none :=
  if_neg (Nat.not_le.mpr short)

theorem checkedSumFrom_eq {width : Nat} {values : List Nat} {sum : Nat}
    (fits : sum + values.sum < 2 ^ width) :
    checkedSumFrom width values sum = some (sum + values.sum) := by
  induction values generalizing sum with
  | nil => rw [checkedSumFrom, List.sum_nil, Nat.add_zero]
  | cons value rest ih =>
      rw [List.sum_cons, ← Nat.add_assoc] at fits ⊢
      rw [checkedSumFrom, fit_eq (Nat.lt_of_le_of_lt (Nat.le_add_right _ _) fits)]
      exact ih fits

/-- A sum that fits has no partial sum that does not. -/
theorem checkedSum_eq {width : Nat} {values : List Nat} (fits : values.sum < 2 ^ width) :
    checkedSum width values = some values.sum := by
  rw [checkedSum, checkedSumFrom_eq (by rwa [Nat.zero_add]), Nat.zero_add]

end Foculus.Data

import Mathlib.GroupTheory.OrderOfElement

namespace Foculus.Data

/-! Repeated squaring where an exponent that gives one is known.

The exponent may then be reduced before anything is raised to it, and if it is a
power of two times one less than a power of two, the squarings run in a circle
as soon as the first of the two powers is used up.
-/

section Squaring

variable [Monoid M] {x : M}

theorem square_iterate (count : Nat) (x : M) :
    (fun x => x * x)^[count] x = x ^ 2 ^ count := by
  have squares : (fun x : M => x * x) = fun x => x ^ 2 := funext fun x => (pow_two x).symm
  rw [squares, pow_iterate]

theorem square_iterate_reduced {order : Nat} (unit : x ^ order = 1) (count : Nat) :
    (fun x => x * x)^[count] x = x ^ (2 ^ count % order) := by
  rw [square_iterate]
  exact pow_eq_pow_of_modEq (Nat.mod_modEq _ order).symm unit

theorem two_pow_period {low count : Nat} (late : low ≤ count) (period rounds : Nat) :
    2 ^ (count + period * rounds) ≡ 2 ^ count [MOD 2 ^ low * (2 ^ period - 1)] := by
  have once : 2 ^ period ≡ 1 [MOD 2 ^ period - 1] := by
    have positive : 1 ≤ 2 ^ period := Nat.one_le_two_pow
    exact ((Nat.modEq_iff_dvd' positive).mpr (Nat.dvd_refl _)).symm
  have often : 2 ^ (count - low) * (2 ^ period) ^ rounds ≡ 2 ^ (count - low)
      [MOD 2 ^ period - 1] := by
    have turned := (once.pow rounds).mul_left (2 ^ (count - low))
    rwa [one_pow, Nat.mul_one] at turned
  have lifted := often.mul_left' (2 ^ low)
  rwa [← Nat.mul_assoc, ← Nat.pow_add, Nat.add_sub_cancel' late, ← Nat.pow_mul,
    ← Nat.pow_add] at lifted

theorem square_iterate_period {low period count : Nat}
    (unit : x ^ (2 ^ low * (2 ^ period - 1)) = 1) (late : low ≤ count) (rounds : Nat) :
    (fun x => x * x)^[count + period * rounds] x = (fun x => x * x)^[count] x := by
  rw [square_iterate, square_iterate]
  exact pow_eq_pow_of_modEq (two_pow_period late period rounds) unit

end Squaring

end Foculus.Data

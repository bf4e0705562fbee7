import Foculus.Data.Interpolation
import Mathlib.NumberTheory.LucasPrimality
import Mathlib.Tactic.NormNum.Prime
import Mathlib.Tactic.ReduceModChar

namespace Foculus

/-! # The Goldilocks field of nebu

The crate is not part of the repository.  Its field is the integers modulo
`P = 2^64 - 2^32 + 1`; `Goldilocks::new` reduces, `as_u64` returns the canonical
representative, `exp` is exponentiation and `inv` sends zero to zero, which is
what Mathlib's `ZMod P` provides.  The number-theoretic transform is a
parameter, `Nebu`, and `Nebu.Lawful` is what its documentation promises.
-/

abbrev P : Nat := 18446744069414584321

abbrev Goldilocks := ZMod P

namespace Goldilocks

-- The numerals in which elements are written.

instance two_numeral : Nat.AtLeastTwo 2 := inferInstance

instance seven_numeral : Nat.AtLeastTwo 7 := inferInstance

def new (value : Nat) : Goldilocks := (value : ZMod P)

def asU64 (element : Goldilocks) : Nat := element.val

theorem asU64_new {value : Nat} (bound : value < P) : (new value).asU64 = value :=
  ZMod.val_cast_of_lt bound

/-- The multiplicative generator that the transform and the erasure code
derive their roots of unity from. -/
def generator : Goldilocks := 7

def rootOfUnity (n : Nat) : Goldilocks := generator ^ ((P - 1) / n)

private theorem prime_divisor {q : Nat} (prime : q.Prime) (divides : q ∣ P - 1) :
    q = 2 ∨ q = 3 ∨ q = 5 ∨ q = 17 ∨ q = 257 ∨ q = 65537 := by
  have factors : P - 1 = 2 ^ 32 * (3 * 5 * 17 * 257 * 65537) := by norm_num
  have only (r : Nat) (isPrime : r.Prime) (divides : q ∣ r) : q = r :=
    (Nat.prime_dvd_prime_iff_eq prime isPrime).mp divides
  rw [factors] at divides
  simp only [prime.dvd_mul] at divides
  rcases divides with two | ((((three | five) | seventeen) | fermat3) | fermat4)
  · exact .inl (only 2 Nat.prime_two (prime.dvd_of_dvd_pow two))
  · exact .inr (.inl (only 3 (by norm_num) three))
  · exact .inr (.inr (.inl (only 5 (by norm_num) five)))
  · exact .inr (.inr (.inr (.inl (only 17 (by norm_num) seventeen))))
  · exact .inr (.inr (.inr (.inr (.inl (only 257 (by norm_num) fermat3)))))
  · exact .inr (.inr (.inr (.inr (.inr (only 65537 (by norm_num) fermat4)))))

private theorem generator_pow_order : generator ^ (P - 1) = 1 := by
  change (7 : ZMod 18446744069414584321) ^ 18446744069414584320 = 1
  reduce_mod_char

private theorem generator_pow_proper {q : Nat} (prime : q.Prime) (divides : q ∣ P - 1) :
    generator ^ ((P - 1) / q) ≠ 1 := by
  change (7 : ZMod 18446744069414584321) ^ ((18446744069414584321 - 1) / q) ≠ 1
  rcases prime_divisor prime divides with rfl | rfl | rfl | rfl | rfl | rfl <;>
    norm_num only <;> reduce_mod_char <;> decide

/-- `P` is prime, by Lucas' criterion at the generator. -/
instance prime : Fact (Nat.Prime P) :=
  ⟨lucas_primality P generator generator_pow_order fun _ => generator_pow_proper⟩

theorem generator_order : orderOf generator = P - 1 :=
  orderOf_eq_of_pow_and_pow_div_prime (by norm_num) generator_pow_order
    fun _ => generator_pow_proper

/-- The sizes nebu transforms: the powers of two that divide `P - 1`. -/
def TransformSize (n : Nat) : Prop := ∃ exponent ≤ 32, n = 2 ^ exponent

theorem TransformSize.dvd {n : Nat} (size : TransformSize n) : n ∣ P - 1 := by
  obtain ⟨exponent, bound, rfl⟩ := size
  have factors : P - 1 = 2 ^ 32 * 4294967295 := by norm_num
  rw [factors]
  exact Dvd.dvd.mul_right (pow_dvd_pow 2 bound) _

theorem TransformSize.pos {n : Nat} (size : TransformSize n) : 0 < n := by
  obtain ⟨exponent, _, rfl⟩ := size
  positivity

theorem rootOfUnity_order {n : Nat} (size : TransformSize n) : orderOf (rootOfUnity n) = n := by
  have divides := size.dvd
  have quotient : (P - 1) / n ∣ orderOf generator := by
    rw [generator_order]
    exact Nat.div_dvd_of_dvd divides
  have positive : 0 < (P - 1) / n := Nat.div_pos (Nat.le_of_dvd (by norm_num) divides) size.pos
  rw [rootOfUnity, orderOf_pow_of_dvd positive.ne' quotient, generator_order,
    Nat.div_div_self divides (by norm_num)]

/-- Distinct shard indices are distinct evaluation points. -/
theorem rootOfUnity_pow_inj {n left right : Nat} (size : TransformSize n)
    (leftBound : left < n) (rightBound : right < n)
    (same : rootOfUnity n ^ left = rootOfUnity n ^ right) : left = right := by
  have order := rootOfUnity_order size
  exact pow_injOn_Iio_orderOf (by simpa [order] using leftBound)
    (by simpa [order] using rightBound) same

end Goldilocks

structure Nebu where
  ntt : List Goldilocks → List Goldilocks
  intt : List Goldilocks → List Goldilocks

/-- What nebu documents of its transforms: `ntt` evaluates the polynomial at the
powers of the root of unity in natural order, and `intt` undoes it. -/
structure Nebu.Lawful (nebu : Nebu) : Prop where
  ntt_evaluates : ∀ poly : List Goldilocks, Goldilocks.TransformSize poly.length →
    nebu.ntt poly = (List.range poly.length).map fun index =>
      (Data.listPoly poly).eval (Goldilocks.rootOfUnity poly.length ^ index)
  intt_inverts : ∀ poly : List Goldilocks, Goldilocks.TransformSize poly.length →
    nebu.intt (nebu.ntt poly) = poly

end Foculus

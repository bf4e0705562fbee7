import Mathlib.Algebra.Group.Nat.Defs
import Mathlib.Order.Lattice

namespace Foculus.Data

/-! 64-bit counters that stop at their maximum. -/

/-- The number of elements of a collection as a `u64`.  A collection that fits
into memory never has more than `u64::MAX` elements, so the cap is not reached. -/
def lenU64 (count : Nat) : UInt64 := UInt64.ofNat (min count (2 ^ 64 - 1))

def satAdd (left right : UInt64) : UInt64 := lenU64 (left.toNat + right.toNat)

def satSub (left right : UInt64) : UInt64 := UInt64.ofNat (left.toNat - right.toNat)

@[simp] theorem lenU64_toNat (count : Nat) : (lenU64 count).toNat = min count (2 ^ 64 - 1) := by
  rw [lenU64, UInt64.toNat_ofNat_of_lt']
  have bound : min count (2 ^ 64 - 1) ≤ 2 ^ 64 - 1 := Nat.min_le_right _ _
  exact Nat.lt_of_le_of_lt bound (by decide)

@[simp] theorem satAdd_lenU64 (left right : Nat) :
    satAdd (lenU64 left) (lenU64 right) = lenU64 (left + right) := by
  apply UInt64.toNat_inj.mp
  rw [satAdd, lenU64_toNat, lenU64_toNat, lenU64_toNat, lenU64_toNat]
  omega

theorem satAdd_toNat {left right : UInt64} (bound : left.toNat + right.toNat < 2 ^ 64) :
    (satAdd left right).toNat = left.toNat + right.toNat := by
  rw [satAdd, lenU64_toNat]
  omega

theorem lt_max_satAdd (now : UInt64) {stamp : UInt64} (bound : stamp.toNat + 1 < 2 ^ 64) :
    stamp < max now (satAdd stamp 1) := by
  have next : (satAdd stamp 1).toNat = stamp.toNat + 1 := satAdd_toNat bound
  change stamp < if now ≤ satAdd stamp 1 then satAdd stamp 1 else now
  split_ifs with early
  · rw [UInt64.lt_iff_toNat_lt]
    omega
  · rw [UInt64.lt_iff_toNat_lt]
    rw [UInt64.le_iff_toNat_le] at early
    omega

theorem max_satAdd_last (now : UInt64) {stamp : UInt64} (last : stamp.toNat + 1 = 2 ^ 64) :
    max now (satAdd stamp 1) = stamp := by
  have same : satAdd stamp 1 = stamp := by
    apply UInt64.toNat_inj.mp
    rw [satAdd, lenU64_toNat]
    change min (stamp.toNat + 1) (2 ^ 64 - 1) = stamp.toNat
    omega
  have below : now ≤ stamp := by
    have bound := now.toNat_lt
    rw [UInt64.le_iff_toNat_le]
    omega
  change (if now ≤ satAdd stamp 1 then satAdd stamp 1 else now) = stamp
  rw [same, if_pos below]

theorem satSub_toNat (left right : UInt64) :
    (satSub left right).toNat = left.toNat - right.toNat := by
  have bound := left.toNat_lt
  exact UInt64.toNat_ofNat_of_lt' (Nat.lt_of_le_of_lt (Nat.sub_le _ _) bound)

theorem lenU64_of_toNat (value : UInt64) : lenU64 value.toNat = value := by
  apply UInt64.toNat_inj.mp
  have bound := value.toNat_lt
  rw [lenU64_toNat]
  omega

theorem lenU64_one : lenU64 1 = 1 := rfl

/-- Read as an `i64` the count is itself, as no collection has `2 ^ 63` elements. -/
theorem lenU64_toInt {count : Nat} (bound : count < 2 ^ 63) :
    (lenU64 count).toInt64.toInt = count := by
  have word : (lenU64 count).toNat = count := by
    rw [lenU64_toNat]
    omega
  change (lenU64 count).toBitVec.toInt = count
  rw [BitVec.toInt_eq_toNat_of_lt, UInt64.toNat_toBitVec, word]
  rw [UInt64.toNat_toBitVec, word]
  omega

theorem lenU64_eq_zero_iff {count : Nat} : lenU64 count = 0 ↔ count = 0 := by
  rw [← UInt64.toNat_inj, lenU64_toNat, UInt64.toNat_zero]
  omega

end Foculus.Data

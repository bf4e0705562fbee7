import Mathlib.Data.List.Induction
import Mathlib.Data.Nat.Bitwise
import Mathlib.Tactic.Ring

namespace Foculus.Data

/-! Little-endian byte strings.

`leBytes` and `ofLeBytes` are the arithmetic reading of the byte shuffling that
fixed-width integers undergo on their way into a buffer.  The shift-and-mask
loops found in programs are related to them once, at the end of the module, so
that no client has to reason about individual bits.
-/

/-- The `width` low bytes of `value`, least significant byte first. -/
def leBytes : Nat → Nat → List UInt8
  | 0, _ => []
  | width + 1, value => UInt8.ofNat value :: leBytes width (value / 256)

def ofLeBytes : List UInt8 → Nat
  | [] => 0
  | byte :: rest => byte.toNat + 256 * ofLeBytes rest

@[simp] theorem leBytes_length (width value : Nat) :
    (leBytes width value).length = width := by
  induction width generalizing value with
  | zero => rfl
  | succ width ih => simp only [leBytes, List.length_cons, ih]

theorem ofLeBytes_lt (bytes : List UInt8) : ofLeBytes bytes < 256 ^ bytes.length := by
  induction bytes with
  | nil => simp [ofLeBytes]
  | cons byte rest ih =>
      have byteBound : byte.toNat < 256 := byte.toNat_lt
      rw [ofLeBytes, List.length_cons, Nat.pow_succ]
      omega

theorem ofLeBytes_leBytes {width value : Nat} (bound : value < 256 ^ width) :
    ofLeBytes (leBytes width value) = value := by
  induction width generalizing value with
  | zero =>
      have zero : value = 0 := by simpa using bound
      subst value
      rfl
  | succ width ih =>
      have quotient : value / 256 < 256 ^ width := by
        rw [Nat.pow_succ] at bound
        omega
      rw [leBytes, ofLeBytes, ih quotient, UInt8.toNat_ofNat']
      omega

theorem leBytes_inj {width left right : Nat} (leftBound : left < 256 ^ width)
    (rightBound : right < 256 ^ width) :
    leBytes width left = leBytes width right ↔ left = right := by
  refine ⟨fun same => ?_, fun same => same ▸ rfl⟩
  rw [← ofLeBytes_leBytes leftBound, ← ofLeBytes_leBytes rightBound, same]

/-- Unpacking a packed byte string restores it, followed by the zero bytes that
the packing did not fill. -/
theorem leBytes_ofLeBytes (bytes : List UInt8) (slack : Nat) :
    leBytes (bytes.length + slack) (ofLeBytes bytes) = bytes ++ List.replicate slack 0 := by
  induction bytes with
  | nil =>
      simp only [List.length_nil, Nat.zero_add, List.nil_append, ofLeBytes]
      induction slack with
      | zero => rfl
      | succ slack ih => simp only [leBytes, Nat.zero_div, ih, List.replicate_succ]; rfl
  | cons byte rest ih =>
      have byteBound : byte.toNat < 256 := byte.toNat_lt
      have low : UInt8.ofNat (byte.toNat + 256 * ofLeBytes rest) = byte := by
        apply UInt8.toNat_inj.mp
        rw [UInt8.toNat_ofNat']
        omega
      have high : (byte.toNat + 256 * ofLeBytes rest) / 256 = ofLeBytes rest := by omega
      rw [List.length_cons, Nat.add_right_comm, leBytes, ofLeBytes, low, high, ih,
        List.cons_append]

theorem ofLeBytes_append (left right : List UInt8) :
    ofLeBytes (left ++ right) = ofLeBytes left + 256 ^ left.length * ofLeBytes right := by
  induction left with
  | nil => simp [ofLeBytes]
  | cons byte rest ih =>
      rw [List.cons_append, ofLeBytes, ofLeBytes, ih, List.length_cons]
      ring

/-- Packing by shifting every byte into place and or-ing it into the
accumulator, the way a loop over an enumerated slice does it. -/
def orShifted (bytes : List UInt8) : Nat :=
  bytes.zipIdx.foldl (fun value (byte, lane) => value ||| byte.toNat <<< (lane * 8)) 0

theorem orShifted_eq (bytes : List UInt8) : orShifted bytes = ofLeBytes bytes := by
  induction bytes using List.reverseRecOn with
  | nil => rfl
  | append_singleton bytes byte ih =>
      -- the accumulated value only occupies the lanes below the one or-ed in
      have below : ofLeBytes bytes < 2 ^ (bytes.length * 8) := by
        have bound := ofLeBytes_lt bytes
        rwa [show (256 : Nat) = 2 ^ 8 from rfl, ← Nat.pow_mul, Nat.mul_comm] at bound
      have width : (256 : Nat) ^ bytes.length = 2 ^ (bytes.length * 8) := by
        rw [show (256 : Nat) = 2 ^ 8 from rfl, ← Nat.pow_mul, Nat.mul_comm]
      unfold orShifted at ih ⊢
      rw [List.zipIdx_append, List.foldl_append, ih, ofLeBytes_append, width]
      simp only [List.zipIdx_singleton, Nat.zero_add, List.foldl_cons, List.foldl_nil, ofLeBytes,
        Nat.mul_zero, Nat.add_zero]
      rw [Nat.shiftLeft_eq, Nat.mul_comm byte.toNat, Nat.or_comm,
        ← Nat.two_pow_add_eq_or_of_lt below, Nat.add_comm]

theorem map_shifted_eq_leBytes (width value : Nat) :
    (List.range width).map (fun lane => UInt8.ofNat (value >>> (lane * 8))) =
      leBytes width value := by
  induction width generalizing value with
  | zero => rfl
  | succ width ih =>
      rw [List.range_succ_eq_map, List.map_cons, List.map_map, leBytes, ← ih]
      simp only [Nat.zero_mul, Nat.shiftRight_zero, List.cons.injEq, true_and]
      refine List.map_congr_left fun lane _ => congrArg UInt8.ofNat ?_
      rw [Nat.shiftRight_eq_div_pow, Nat.shiftRight_eq_div_pow, Nat.div_div_eq_div_mul]
      congr 1
      rw [Nat.succ_mul, Nat.add_comm, Nat.pow_add]

end Foculus.Data

import Foculus.Data.Squaring
import Foculus.Epoch.Runner
import Mathlib.FieldTheory.Finite.Basic

namespace Foculus.Epoch

open Data

/-! # What the delay function proves (`src/vdf.rs`)

`evaluate` computes modulo `P` and takes one for zero.  `verify` runs it again,
except for zero iterations, where it compares the raw words: an input that is
not reduced is then never accepted, not even with what `evaluate` returned.  The
group that is squared in has a known order, so a number of iterations stands for
32 others as well. -/

namespace Vdf

/-- The element that is squared. -/
def start (input : UInt64) : Goldilocks :=
  if Goldilocks.new input.toNat = 0 then 1 else Goldilocks.new input.toNat

theorem start_ne_zero (input : UInt64) : start input ≠ 0 := by
  rw [start]
  split_ifs with zero
  · exact one_ne_zero
  · exact zero

theorem ofNat_asU64 (element : Goldilocks) :
    (UInt64.ofNat element.asU64).toNat = element.asU64 := by
  have small : element.asU64 < P := ZMod.val_lt element
  exact UInt64.toNat_ofNat_of_lt' (small.trans (by decide))

theorem evaluate_output (input iterations : UInt64) :
    (evaluate input iterations).output.toNat =
      ((fun x => x * x)^[iterations.toNat] (start input)).asU64 :=
  ofNat_asU64 _

theorem evaluate_output_lt (input iterations : UInt64) :
    (evaluate input iterations).output.toNat < P := by
  rw [evaluate_output]
  exact ZMod.val_lt _

/-- Without iterations the output is the input, if that is reduced and not zero. -/
theorem evaluate_idle {input : UInt64} (reduced : input.toNat < P) :
    (evaluate input 0).output = if input = 0 then 1 else input := by
  apply UInt64.toNat_inj.mp
  have idle : (evaluate input 0).output.toNat = (start input).asU64 := evaluate_output input 0
  rw [idle, start]
  by_cases zero : input = 0
  · subst zero
    decide +kernel
  · have value := Goldilocks.asU64_new reduced
    have nonzero : Goldilocks.new input.toNat ≠ 0 := by
      intro vanishes
      rw [vanishes] at value
      exact zero (UInt64.toNat_inj.mp value.symm)
    rw [if_neg nonzero, if_neg zero, value]

theorem verify_evaluate_iff (input iterations : UInt64) :
    verify (evaluate input iterations) = true ↔ iterations ≠ 0 ∨ input.toNat < P := by
  by_cases delayed : iterations = 0
  · subst delayed
    have unfolded : verify (evaluate input 0) =
        (input == (evaluate input 0).output || (input == 0 && (evaluate input 0).output == 1)) :=
      rfl
    rw [unfolded]
    constructor
    · intro accepted
      have reduced := evaluate_output_lt input 0
      rcases Bool.or_eq_true_iff.mp accepted with same | zero
      · rw [← beq_iff_eq.mp same] at reduced
        exact .inr reduced
      · rw [beq_iff_eq.mp (Bool.and_eq_true_iff.mp zero).1]
        exact .inr (by decide)
    · rintro (delayed | reduced)
      · exact absurd rfl delayed
      · rw [evaluate_idle reduced]
        by_cases zero : input = 0
        · simp [zero]
        · simp [zero]
  · simp [delayed, verify_evaluate input delayed]

theorem start_pow_order (input : UInt64) : start input ^ (P - 1) = 1 :=
  ZMod.pow_card_sub_one_eq_one (start_ne_zero input)

/-- `P - 1` is `2^32 * (2^32 - 1)`. -/
theorem evaluate_output_period (input : UInt64) {iterations later : UInt64}
    (late : 32 ≤ iterations.toNat) (rounds : Nat)
    (turns : later.toNat = iterations.toNat + 32 * rounds) :
    (evaluate input later).output = (evaluate input iterations).output := by
  have order : start input ^ (2 ^ 32 * (2 ^ 32 - 1)) = 1 := start_pow_order input
  apply UInt64.toNat_inj.mp
  rw [evaluate_output, evaluate_output, turns, square_iterate_period order late]

/-- The proof is verified by running the delay. -/
theorem verify_delayed {proof : VdfProof} (delayed : proof.iterations ≠ 0) :
    verify proof = true ↔ (evaluate proof.input proof.iterations).output = proof.output := by
  rw [verify, if_neg delayed, beq_iff_eq]

end Vdf

section Beacon

variable {zheng : Zheng} {hemera : Hemera}

/-- Of an opened beacon only the delay can be refused. -/
theorem verifyBeacon_openBeacon_eq (epoch : UInt64) (prev claimsRoot : Particle)
    (signalOutputs : List UInt64) (outerT : UInt64) :
    verifyBeacon hemera (openBeacon hemera epoch prev claimsRoot signalOutputs outerT) =
      Vdf.verify (Vdf.evaluate
        (vdfInput hemera epoch prev claimsRoot (signalVdfRoot hemera signalOutputs)) outerT) := by
  simp only [verifyBeacon, openBeacon, beq_self_eq_true]
  split_ifs with unverified foreign
  · exact (by simpa using unverified : _ = false).symm
  · exact absurd rfl foreign
  · exact (by simpa using unverified : _ = true).symm

theorem EpochRunner.openBeacon_invalid_iff {runner : EpochRunner zheng}
    {signalVdfs : List VdfProof} :
    runner.openBeacon hemera signalVdfs = .error .beaconInvalid ↔
      runner.phase = .frozen ∧ ∃ root, runner.claimsRoot = some root ∧
        verifyBeacon hemera (Epoch.openBeacon hemera runner.epoch runner.prevBeacon root
          (collectSignalOutputs signalVdfs) runner.outerT) = false := by
  rw [EpochRunner.openBeacon]
  split_ifs with early
  · simp [early]
  · rw [not_not] at early
    cases claims : runner.claimsRoot with
    | none => simp
    | some root => simp [early]

end Beacon

/-- What `evaluate` returns is refused exactly when nothing was squared and the
input was not reduced; so it is with the beacons that are opened from it. -/
theorem evaluated_delay_verifies (hemera : Hemera) (zheng : Zheng) :
    (∀ input iterations, Vdf.verify (Vdf.evaluate input iterations) = true ↔
      iterations ≠ 0 ∨ input.toNat < P) ∧
    (∀ epoch prev claimsRoot signalOutputs outerT,
      verifyBeacon hemera (openBeacon hemera epoch prev claimsRoot signalOutputs outerT) = true ↔
        outerT ≠ 0 ∨
          (vdfInput hemera epoch prev claimsRoot (signalVdfRoot hemera signalOutputs)).toNat < P) ∧
    ∀ (runner : EpochRunner zheng) (signalVdfs : List VdfProof),
      runner.openBeacon hemera signalVdfs = .error .beaconInvalid ↔
        runner.phase = .frozen ∧ ∃ root, runner.claimsRoot = some root ∧ runner.outerT = 0 ∧
          P ≤ (vdfInput hemera runner.epoch runner.prevBeacon root
            (signalVdfRoot hemera (collectSignalOutputs signalVdfs))).toNat := by
  have opened : ∀ epoch prev claimsRoot signalOutputs outerT,
      verifyBeacon hemera (openBeacon hemera epoch prev claimsRoot signalOutputs outerT) = true ↔
        outerT ≠ 0 ∨
          (vdfInput hemera epoch prev claimsRoot (signalVdfRoot hemera signalOutputs)).toNat < P := by
    intro epoch prev claimsRoot signalOutputs outerT
    rw [verifyBeacon_openBeacon_eq, Vdf.verify_evaluate_iff]
  refine ⟨Vdf.verify_evaluate_iff, opened, ?_⟩
  intro runner signalVdfs
  simp only [EpochRunner.openBeacon_invalid_iff, ← Bool.not_eq_true, opened, not_or, not_not,
    Nat.not_lt]

/-- A runner that opens its beacon without delay. -/
def idleRunner : EpochRunner Step.counting :=
  { EpochRunner.genesis Step.counting 1 with
    phase := .frozen
    claimsRoot := some Particle.zero
    outerT := 0 }

/-- The word of all ones is not reduced. -/
theorem unreduced_input_refused :
    Vdf.verify (Vdf.evaluate (2 ^ 64 - 1) 0) = false ∧
    verifyBeacon .truncating (openBeacon .truncating 1 .zero .zero
      (List.replicate 4 (2 ^ 64 - 1)) 0) = false ∧
    idleRunner.phase = .frozen ∧
    idleRunner.openBeacon .truncating (List.replicate 4 ⟨2 ^ 64 - 1, 2 ^ 64 - 1, 0⟩) =
      .error .beaconInvalid := by
  have runs : Vdf.verify (Vdf.evaluate (2 ^ 64 - 1) 0) = false ∧
      verifyBeacon .truncating (openBeacon .truncating 1 .zero .zero
        (List.replicate 4 (2 ^ 64 - 1)) 0) = false ∧
      collectSignalOutputs (List.replicate 4 ⟨2 ^ 64 - 1, 2 ^ 64 - 1, 0⟩) =
        List.replicate 4 (2 ^ 64 - 1) := by
    decide +kernel
  obtain ⟨word, beacon, outputs⟩ := runs
  refine ⟨word, beacon, rfl, EpochRunner.openBeacon_invalid_iff.mpr ⟨rfl, _, rfl, ?_⟩⟩
  rw [outputs]
  exact beacon

/-- The output is the input raised to what the group order leaves of `2 ^ T`;
from 32 squarings on it comes back every 32, and a proof of so many verifies with
any number of rounds of 32 added. -/
theorem delay_output_is_reduced_power (input iterations : UInt64) :
    (Vdf.evaluate input iterations).output.toNat =
      (Vdf.start input ^ (2 ^ iterations.toNat % (P - 1))).asU64 ∧
    (32 ≤ iterations.toNat → iterations.toNat + 32 < 2 ^ 64 →
      (Vdf.evaluate input (iterations + 32)).output = (Vdf.evaluate input iterations).output) ∧
    ∀ proof : VdfProof, Vdf.verify proof = true → 32 ≤ proof.iterations.toNat →
      ∀ rounds : Nat, proof.iterations.toNat + 32 * rounds < 2 ^ 64 →
        Vdf.verify { proof with iterations := proof.iterations + UInt64.ofNat (32 * rounds) } =
          true := by
  refine ⟨?_, ?_, ?_⟩
  · rw [Vdf.evaluate_output, square_iterate_reduced (Vdf.start_pow_order input)]
  · intro late fits
    refine Vdf.evaluate_output_period input late 1 ?_
    rw [UInt64.toNat_add]
    exact Nat.mod_eq_of_lt fits
  · intro proof verified late rounds fits
    have turns : (proof.iterations + UInt64.ofNat (32 * rounds)).toNat =
        proof.iterations.toNat + 32 * rounds := by
      have small : 32 * rounds < 2 ^ 64 := by omega
      rw [UInt64.toNat_add, UInt64.toNat_ofNat_of_lt' small]
      exact Nat.mod_eq_of_lt fits
    have delayed : proof.iterations ≠ 0 := by
      intro idle
      rw [idle] at late
      exact absurd late (by decide)
    have longer : proof.iterations + UInt64.ofNat (32 * rounds) ≠ 0 := by
      intro idle
      rw [idle] at turns
      have none : (0 : UInt64).toNat = 0 := rfl
      omega
    refine (Vdf.verify_delayed longer).mpr ?_
    rw [Vdf.evaluate_output_period proof.input late rounds turns]
    exact (Vdf.verify_delayed delayed).mp verified

theorem delay_output_is_reduced_power_seven :
    (Vdf.evaluate 7 (40 + 32)).output = (Vdf.evaluate 7 40).output ∧
    Vdf.verify { Vdf.evaluate 7 40 with iterations := 40 + UInt64.ofNat (32 * 1000000) } = true := by
  have power := delay_output_is_reduced_power 7 40
  refine ⟨power.2.1 (by decide) (by decide), power.2.2 (Vdf.evaluate 7 40) ?_ ?_ 1000000 ?_⟩
  · exact Vdf.verify_evaluate 7 (by decide)
  · decide
  · decide

end Foculus.Epoch

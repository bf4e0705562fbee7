import Foculus.Epoch.Beacon

namespace Foculus.Epoch

open Data

/-! # How many beacons an epoch can have

`verify_beacon` checks the delay input, the delay and the digest, but not the
number of iterations: an artifact may carry any. -/

namespace Vdf

theorem challengeFromHash_ne_zero (hash : Particle) : challengeFromHash hash ≠ 0 := by
  dsimp only [challengeFromHash]
  split_ifs with zero
  · decide
  · exact zero

/-- An accepted output is determined by the input and the number of iterations. -/
theorem verify_output {proof : VdfProof} (nonzero : proof.input ≠ 0)
    (verified : verify proof = true) :
    proof.output = if proof.iterations = 0 then proof.input
      else (evaluate proof.input proof.iterations).output := by
  rw [verify] at verified
  split_ifs at verified ⊢ with idle
  · rcases Bool.or_eq_true_iff.mp verified with same | zero
    · exact (beq_iff_eq.mp same).symm
    · exact absurd (beq_iff_eq.mp (Bool.and_eq_true_iff.mp zero).1) nonzero
  · exact (beq_iff_eq.mp verified).symm

theorem evaluate_one (iterations : UInt64) : (evaluate 1 iterations).output = 1 := by
  have start : (if Goldilocks.new (1 : UInt64).toNat = 0 then 1
      else Goldilocks.new (1 : UInt64).toNat) = 1 := by
    rw [if_neg (by decide +kernel)]
    decide +kernel
  have fixed : (fun x : Goldilocks => x * x)^[iterations.toNat] 1 = 1 :=
    Function.iterate_fixed (f := fun x : Goldilocks => x * x) (mul_one 1) _
  simp only [evaluate, start, fixed]
  decide +kernel

/-- One is the only input that one squaring leaves alone. -/
theorem eq_one_of_squared {input : UInt64} (same : input = (evaluate input 1).output) :
    input = 1 := by
  let start : Goldilocks :=
    if Goldilocks.new input.toNat = 0 then 1 else Goldilocks.new input.toNat
  have small : (start * start).asU64 < 2 ^ 64 :=
    (ZMod.val_lt (start * start)).trans (by norm_num [P])
  have value : input.toNat = (start * start).asU64 := by
    conv_lhs => rw [same]
    exact UInt64.toNat_ofNat_of_lt' small
  have squared : Goldilocks.new input.toNat = start * start := by
    rw [value]
    exact ZMod.natCast_zmod_val _
  have unit : start = 1 := by
    by_cases zero : Goldilocks.new input.toNat = 0
    · exact if_pos zero
    · have kept : start = Goldilocks.new input.toNat := if_neg zero
      rw [← kept] at squared zero
      exact (mul_eq_left₀ zero).mp squared.symm
  rw [unit] at value
  apply UInt64.toNat_inj.mp
  rw [value]
  decide +kernel

end Vdf

/-- The artifact is one for the given epoch, parent, claims and signals. -/
structure BeaconArtifact.For (epoch : UInt64) (prev claimsRoot signalRoot : Particle)
    (art : BeaconArtifact) : Prop where
  epoch_eq : art.epoch = epoch
  prev_eq : art.prev = prev
  claimsRoot_eq : art.claimsRoot = claimsRoot
  signalRoot_eq : art.signalRoot = signalRoot

def beaconPreimage (epoch : UInt64) (prev claimsRoot signalRoot : Particle)
    (outerOutput : UInt64) : List UInt8 :=
  strBytes "foculus-beacon-v0" ++ u64Bytes epoch ++ prev.toList ++ claimsRoot.toList ++
    signalRoot.toList ++ u64Bytes outerOutput

theorem beaconPreimage_inj {epoch : UInt64} {prev claimsRoot signalRoot : Particle}
    {left right : UInt64} (same : beaconPreimage epoch prev claimsRoot signalRoot left =
      beaconPreimage epoch prev claimsRoot signalRoot right) : left = right :=
  u64Bytes_inj (List.append_cancel_left same)

section Tuple

variable {hemera : Hemera} {epoch : UInt64} {prev claimsRoot signalRoot : Particle}

/-- What `verify_beacon` has established of an artifact. -/
theorem verifyBeacon_iff {art : BeaconArtifact} (bound : art.For epoch prev claimsRoot signalRoot) :
    verifyBeacon hemera art = true ↔ Vdf.verify art.outerVdf = true ∧
      art.outerVdf.input = vdfInput hemera epoch prev claimsRoot signalRoot ∧
      art.beacon =
        beaconDigest hemera epoch prev claimsRoot signalRoot art.outerVdf.output := by
  obtain ⟨rfl, rfl, rfl, rfl⟩ := bound
  rw [verifyBeacon]
  split_ifs with unverified foreign
  · simp only [Bool.not_eq_true', false_iff] at unverified ⊢
    rintro ⟨verified, _⟩
    exact Bool.false_ne_true (unverified.symm.trans verified)
  · simp only [false_iff]
    exact fun accepted => foreign accepted.2.1
  · rw [beq_iff_eq, eq_comm]
    exact ⟨fun same => ⟨by simpa using unverified, not_not.mp foreign, same⟩, fun accepted =>
      accepted.2.2⟩

/-- An artifact whose beacon is the digest over the output of its delay. -/
def delayedArtifact (hemera : Hemera) (epoch : UInt64) (prev claimsRoot signalRoot : Particle)
    (outerVdf : VdfProof) : BeaconArtifact where
  epoch := epoch
  prev := prev
  claimsRoot := claimsRoot
  signalRoot := signalRoot
  outerVdf := outerVdf
  beacon := beaconDigest hemera epoch prev claimsRoot signalRoot outerVdf.output

theorem delayedArtifact_accepted (outerVdf : VdfProof) (verified : Vdf.verify outerVdf = true)
    (input : outerVdf.input = vdfInput hemera epoch prev claimsRoot signalRoot) :
    (delayedArtifact hemera epoch prev claimsRoot signalRoot outerVdf).For epoch prev claimsRoot
        signalRoot ∧
      verifyBeacon hemera (delayedArtifact hemera epoch prev claimsRoot signalRoot outerVdf) =
        true :=
  have bound : (delayedArtifact hemera epoch prev claimsRoot signalRoot outerVdf).For epoch prev
    claimsRoot signalRoot := ⟨rfl, rfl, rfl, rfl⟩
  ⟨bound, (verifyBeacon_iff bound).mpr ⟨verified, input, rfl⟩⟩

theorem accepted_output {art : BeaconArtifact} (bound : art.For epoch prev claimsRoot signalRoot)
    (accepted : verifyBeacon hemera art = true) :
    art.outerVdf.output =
      let input := vdfInput hemera epoch prev claimsRoot signalRoot
      if art.outerVdf.iterations = 0 then input
      else (Vdf.evaluate input art.outerVdf.iterations).output := by
  obtain ⟨verified, input, _⟩ := (verifyBeacon_iff bound).mp accepted
  have nonzero : art.outerVdf.input ≠ 0 := by
    rw [input]
    exact Vdf.challengeFromHash_ne_zero _
  have output := Vdf.verify_output nonzero verified
  rwa [input] at output

end Tuple

/-- For one epoch, parent, claim set and signal set, two accepted artifacts with
one number of iterations have the same beacon.  Since the number is free, there
is only one acceptable beacon exactly when the delay input is 1, which squaring
does not change. -/
theorem beacon_unique_iff_input_one (hemera : Hemera) (epoch : UInt64)
    (prev claimsRoot signalRoot : Particle)
    (free : hemera.CollisionFree
      {beaconPreimage epoch prev claimsRoot signalRoot
        (vdfInput hemera epoch prev claimsRoot signalRoot),
       beaconPreimage epoch prev claimsRoot signalRoot
        (Vdf.evaluate (vdfInput hemera epoch prev claimsRoot signalRoot) 1).output}) :
    (∀ left right : BeaconArtifact,
      left.For epoch prev claimsRoot signalRoot → right.For epoch prev claimsRoot signalRoot →
      verifyBeacon hemera left = true → verifyBeacon hemera right = true →
      left.outerVdf.iterations = right.outerVdf.iterations → left.beacon = right.beacon) ∧
    ((∀ left right : BeaconArtifact,
      left.For epoch prev claimsRoot signalRoot → right.For epoch prev claimsRoot signalRoot →
      verifyBeacon hemera left = true → verifyBeacon hemera right = true →
      left.beacon = right.beacon) ↔
        vdfInput hemera epoch prev claimsRoot signalRoot = 1) := by
  have same_output : ∀ left right : BeaconArtifact,
      left.For epoch prev claimsRoot signalRoot → right.For epoch prev claimsRoot signalRoot →
      verifyBeacon hemera left = true → verifyBeacon hemera right = true →
      left.outerVdf.output = right.outerVdf.output → left.beacon = right.beacon := by
    intro left right leftBound rightBound leftAccepted rightAccepted outputs
    rw [((verifyBeacon_iff leftBound).mp leftAccepted).2.2,
      ((verifyBeacon_iff rightBound).mp rightAccepted).2.2, outputs]
  refine ⟨?_, ?_, ?_⟩
  · intro left right leftBound rightBound leftAccepted rightAccepted iterations
    apply same_output left right leftBound rightBound leftAccepted rightAccepted
    rw [accepted_output leftBound leftAccepted, accepted_output rightBound rightAccepted,
      iterations]
  · intro unique
    -- no iteration at all against one squaring
    let input := vdfInput hemera epoch prev claimsRoot signalRoot
    have unsquared : Vdf.verify ⟨input, input, 0⟩ = true := by simp [Vdf.verify]
    have once : Vdf.verify (Vdf.evaluate input 1) = true := Vdf.verify_evaluate input (by decide)
    obtain ⟨idleBound, idle⟩ := delayedArtifact_accepted ⟨input, input, 0⟩ unsquared rfl
    obtain ⟨squaredBound, squared⟩ := delayedArtifact_accepted (Vdf.evaluate input 1) once rfl
    have digests := unique _ _ idleBound squaredBound idle squared
    exact Vdf.eq_one_of_squared (beaconPreimage_inj (free.pair digests))
  · intro one left right leftBound rightBound leftAccepted rightAccepted
    have output : ∀ art : BeaconArtifact, art.For epoch prev claimsRoot signalRoot →
        verifyBeacon hemera art = true → art.outerVdf.output = 1 := by
      intro art bound accepted
      rw [accepted_output bound accepted, one]
      dsimp only
      rw [Vdf.evaluate_one, ite_self]
    apply same_output left right leftBound rightBound leftAccepted rightAccepted
    rw [output left leftBound leftAccepted, output right rightBound rightAccepted]

def twos : Particle := Vector.replicate 32 2

theorem beacon_unique_iff_input_one_twos :
    let input := vdfInput .truncating 7 .zero .zero twos
    Hemera.truncating.CollisionFree {beaconPreimage 7 .zero .zero twos input,
        beaconPreimage 7 .zero .zero twos (Vdf.evaluate input 1).output} ∧
      ((∀ left right : BeaconArtifact, left.For 7 .zero .zero twos → right.For 7 .zero .zero twos →
        verifyBeacon .truncating left = true → verifyBeacon .truncating right = true →
        left.beacon = right.beacon) ↔ input = 1) := by
  intro input
  have free : Hemera.truncating.CollisionFree {beaconPreimage 7 .zero .zero twos input,
      beaconPreimage 7 .zero .zero twos (Vdf.evaluate input 1).output} :=
    Hemera.collisionFree_of_apart (by decide +kernel)
  exact ⟨free, (beacon_unique_iff_input_one .truncating 7 .zero .zero twos free).2⟩

/-- One and two squarings of the same input give two accepted beacons. -/
theorem two_delays_two_beacons :
    let input := vdfInput .truncating 7 .zero .zero twos
    let left := delayedArtifact .truncating 7 .zero .zero twos (Vdf.evaluate input 1)
    let right := delayedArtifact .truncating 7 .zero .zero twos (Vdf.evaluate input 2)
    verifyBeacon .truncating left = true ∧ verifyBeacon .truncating right = true ∧
      left.epoch = right.epoch ∧ left.prev = right.prev ∧ left.claimsRoot = right.claimsRoot ∧
      left.signalRoot = right.signalRoot ∧ left.beacon ≠ right.beacon := by
  decide +kernel

end Foculus.Epoch

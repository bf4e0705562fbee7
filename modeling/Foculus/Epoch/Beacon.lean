import Foculus.Crates.Hemera
import Foculus.Crates.Nebu
import Mathlib.Data.List.Sort

namespace Foculus.Epoch

open Data

/-! # The outer delay function and the epoch beacon (`src/vdf.rs`, `src/beacon.rs`) -/

structure VdfProof where
  input : UInt64
  output : UInt64
  iterations : UInt64
deriving DecidableEq

namespace Vdf

def evaluate (input iterations : UInt64) : VdfProof :=
  let start := Goldilocks.new input.toNat
  let start := if start = 0 then 1 else start
  let x := (fun x => x * x)^[iterations.toNat] start
  { input, output := UInt64.ofNat x.asU64, iterations }

def verify (proof : VdfProof) : Bool :=
  if proof.iterations = 0 then
    proof.input == proof.output || (proof.input == 0 && proof.output == 1)
  else (evaluate proof.input proof.iterations).output == proof.output

def challengeFromHash (hash : Particle) : UInt64 :=
  let val := UInt64.ofNat (orShifted (hash.toList.take 8))
  if val = 0 then 1 else val

theorem verify_evaluate (input : UInt64) {iterations : UInt64} (delayed : iterations ≠ 0) :
    verify (evaluate input iterations) = true := by
  have positive : (evaluate input iterations).iterations ≠ 0 := delayed
  rw [verify, if_neg positive]
  exact beq_self_eq_true _

end Vdf

def genesisPrev : Particle := Particle.zero

def testOuterT : UInt64 := 32

structure BeaconArtifact where
  epoch : UInt64
  prev : Particle
  claimsRoot : Particle
  signalRoot : Particle
  outerVdf : VdfProof
  beacon : Particle
deriving DecidableEq

def claimsRoot (hemera : Hemera) (claimIds : List Particle) : Particle :=
  let sorted := claimIds.insertionSort (· ≤ ·)
  hemera.hash (leBytes 8 sorted.length ++ sorted.flatMap Vector.toList)

def signalVdfRoot (hemera : Hemera) (vdfOutputs : List UInt64) : Particle :=
  if vdfOutputs.isEmpty then Particle.zero
  else
    let sorted := vdfOutputs.insertionSort (· ≤ ·)
    hemera.hash (leBytes 8 sorted.length ++ sorted.flatMap u64Bytes)

def collectSignalOutputs (proofs : List VdfProof) : List UInt64 :=
  (proofs.filter Vdf.verify).map VdfProof.output

def vdfInput (hemera : Hemera) (epoch : UInt64) (prev claimsRoot signalRoot : Particle) : UInt64 :=
  Vdf.challengeFromHash (hemera.hash (strBytes "foculus-beacon-in-v0" ++ u64Bytes epoch ++
    prev.toList ++ claimsRoot.toList ++ signalRoot.toList))

def beaconDigest (hemera : Hemera) (epoch : UInt64) (prev claimsRoot signalRoot : Particle)
    (outerOutput : UInt64) : Particle :=
  hemera.hash (strBytes "foculus-beacon-v0" ++ u64Bytes epoch ++ prev.toList ++
    claimsRoot.toList ++ signalRoot.toList ++ u64Bytes outerOutput)

def openBeacon (hemera : Hemera) (epoch : UInt64) (prev claimsRoot : Particle)
    (signalOutputs : List UInt64) (outerT : UInt64) : BeaconArtifact :=
  let signalRoot := signalVdfRoot hemera signalOutputs
  let outerVdf := Vdf.evaluate (vdfInput hemera epoch prev claimsRoot signalRoot) outerT
  let beacon := beaconDigest hemera epoch prev claimsRoot signalRoot outerVdf.output
  { epoch, prev, claimsRoot, signalRoot, outerVdf, beacon }

def verifyBeacon (hemera : Hemera) (art : BeaconArtifact) : Bool :=
  if !Vdf.verify art.outerVdf then false
  else if art.outerVdf.input ≠ vdfInput hemera art.epoch art.prev art.claimsRoot art.signalRoot then
    false
  else
    beaconDigest hemera art.epoch art.prev art.claimsRoot art.signalRoot art.outerVdf.output ==
      art.beacon

/-- With a positive delay an opened beacon verifies. -/
theorem verifyBeacon_openBeacon (hemera : Hemera) (epoch : UInt64) (prev claimsRoot : Particle)
    (signalOutputs : List UInt64) {outerT : UInt64} (delayed : outerT ≠ 0) :
    verifyBeacon hemera (openBeacon hemera epoch prev claimsRoot signalOutputs outerT) = true := by
  have outer := Vdf.verify_evaluate (vdfInput hemera epoch prev claimsRoot
    (signalVdfRoot hemera signalOutputs)) delayed
  simp only [verifyBeacon, openBeacon, outer]
  simp [Vdf.evaluate]

theorem claimsRoot_perm (hemera : Hemera) {left right : List Particle}
    (permuted : left.Perm right) : claimsRoot hemera left = claimsRoot hemera right := by
  have sorted : left.insertionSort (· ≤ ·) = right.insertionSort (· ≤ ·) := by
    have same : (left.insertionSort (· ≤ ·)).Perm (right.insertionSort (· ≤ ·)) :=
      ((List.perm_insertionSort _ left).trans permuted).trans (List.perm_insertionSort _ right).symm
    exact same.eq_of_pairwise (fun _ _ _ _ => Std.le_antisymm)
      (List.pairwise_insertionSort _ left) (List.pairwise_insertionSort _ right)
  rw [claimsRoot, claimsRoot, sorted]

end Foculus.Epoch

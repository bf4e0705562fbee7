import Foculus.Crates.Hemera
import Foculus.Crates.Nebu

namespace Foculus

/-! # The zheng proof system

Accumulators, transcripts and proofs belong to the crate; the repository only
passes them along. -/

structure Statement where
  programHash : Particle
  inputHash : Particle
  outputHash : Particle
  focusBound : Nat
  bbgRoot : Particle
deriving DecidableEq

structure Zheng where
  Accumulator : Type
  Witness : Type
  Transcript : Type
  Proof : Type
  blank : Accumulator
  newTranscript : Transcript
  universalWitness : List Goldilocks → List Goldilocks → Witness
  fold : Accumulator → Witness → Transcript → Option (Accumulator × Transcript)
  decide : Accumulator → Statement → Option Proof
  verify : Proof → Accumulator → Statement → Bool
  stepCount : Accumulator → UInt64

end Foculus

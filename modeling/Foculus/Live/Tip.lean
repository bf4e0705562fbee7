import Foculus.Step

namespace Foculus.Live

open Data

/-! # The trusted tip (`src/tip.rs`) -/

inductive TipTrust where
  | localApplied
  | foldDecided
  | untrusted
deriving DecidableEq, Repr

def TipTrust.byte : TipTrust → UInt8
  | .localApplied => 1
  | .foldDecided => 2
  | .untrusted => 0

structure Checkpoint (zheng : Zheng) where
  root : Particle
  acc : Option zheng.Accumulator
  height : UInt64

structure Tip (zheng : Zheng) where
  height : UInt64
  root : Particle
  foldingAcc : Option zheng.Accumulator
  trust : TipTrust
  statement : Option Statement

inductive TipError where
  | notFoldMode
  | heightRegression
  | foldFailed
  | noAccumulator
  | emptyAccumulator
  | decideFailed
  | verifyFailed
deriving DecidableEq, Repr

def statementForRoot (root : Particle) (height : UInt64) : Statement where
  programHash := Particle.padded (strBytes "foculus-tip-fold-v0")
  inputHash := Particle.padded (u64Bytes height)
  outputHash := root
  focusBound := 0
  bbgRoot := Particle.zero

def blockWitness (hemera : Hemera) (zheng : Zheng) (height : UInt64) (root leaves : Particle) :
    zheng.Witness :=
  Step.addStep hemera zheng (u64Bytes height ++ root.toList ++ leaves.toList)

namespace Tip

variable {zheng : Zheng}

def grade4 (tip : Tip zheng) : Bool :=
  tip.trust == .localApplied || tip.trust == .foldDecided

def fromLocal (checkpoint : Checkpoint zheng) : Tip zheng where
  height := checkpoint.height
  root := checkpoint.root
  foldingAcc := checkpoint.acc
  trust := .localApplied
  statement := none

def untrusted (zheng : Zheng) : Tip zheng where
  height := 0
  root := Particle.zero
  foldingAcc := none
  trust := .untrusted
  statement := none

def untrustedAt (checkpoint : Checkpoint zheng) : Tip zheng where
  height := checkpoint.height
  root := checkpoint.root
  foldingAcc := checkpoint.acc
  trust := .untrusted
  statement := none

def joinCheckpoint (checkpoint : Checkpoint zheng) : Tip zheng :=
  match checkpoint.acc with
  | none => untrustedAt checkpoint
  | some acc =>
      if zheng.stepCount acc = 0 then untrustedAt checkpoint
      else
        let statement := statementForRoot checkpoint.root checkpoint.height
        match zheng.decide acc statement with
        | none => untrustedAt checkpoint
        | some proof =>
            if !Step.verifyGroup zheng acc proof statement then untrustedAt checkpoint
            else {
              height := checkpoint.height
              root := checkpoint.root
              foldingAcc := some acc
              trust := .foldDecided
              statement := some statement }

/-- A missing accumulator is set to the blank one even when the fold then fails. -/
def advanceFold (hemera : Hemera) (tip : Tip zheng) (height : UInt64) (root : Particle) :
    Tip zheng × Except TipError Unit :=
  if tip.trust ≠ .foldDecided then (tip, .error .notFoldMode)
  else if height < tip.height then (tip, .error .heightRegression)
  else
    let acc := tip.foldingAcc.getD zheng.blank
    let tip := { tip with foldingAcc := some acc }
    match zheng.fold acc (blockWitness hemera zheng height root Particle.zero)
        zheng.newTranscript with
    | none => (tip, .error .foldFailed)
    | some (acc, _) =>
        ({ tip with
          foldingAcc := some acc
          height
          root
          statement := some (statementForRoot root height) }, .ok ())

end Tip

structure TipProver (zheng : Zheng) where
  acc : zheng.Accumulator
  transcript : zheng.Transcript
  height : UInt64
  root : Particle

namespace TipProver

variable {zheng : Zheng}

def new (zheng : Zheng) : TipProver zheng where
  acc := zheng.blank
  transcript := zheng.newTranscript
  height := 0
  root := Particle.zero

def foldBlock (hemera : Hemera) (prover : TipProver zheng) (height : UInt64)
    (root rootLeavesHash : Particle) : TipProver zheng × Except TipError Unit :=
  if height < prover.height ∧ zheng.stepCount prover.acc > 0 then (prover, .error .heightRegression)
  else
    let witness := blockWitness hemera zheng height root rootLeavesHash
    let transcript := if zheng.stepCount prover.acc = 0 then zheng.newTranscript
      else prover.transcript
    match zheng.fold prover.acc witness transcript with
    | none => ({ prover with transcript }, .error .foldFailed)
    | some (acc, transcript) => ({ acc, transcript, height, root }, .ok ())

def foldHeight (hemera : Hemera) (prover : TipProver zheng) (height : UInt64) (root : Particle) :
    TipProver zheng × Except TipError Unit :=
  prover.foldBlock hemera height root Particle.zero

def checkpoint (prover : TipProver zheng) : Checkpoint zheng where
  root := prover.root
  acc := some prover.acc
  height := prover.height

def sealTip (prover : TipProver zheng) : Except TipError (Tip zheng) :=
  let tip := Tip.joinCheckpoint prover.checkpoint
  if !tip.grade4 then .error .verifyFailed else .ok tip

theorem sealTip_grade4 {prover : TipProver zheng} {tip : Tip zheng}
    (seals : prover.sealTip = .ok tip) : tip.grade4 = true := by
  simp only [sealTip] at seals
  split_ifs at seals with untrusted
  cases seals
  simpa using untrusted

end TipProver

end Foculus.Live

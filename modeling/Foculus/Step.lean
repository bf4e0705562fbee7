import Foculus.Crates.Zheng
import Foculus.Data.Saturating

namespace Foculus.Step

/-! # Fold steps (`src/step.rs`) -/

def addTag : Goldilocks := Goldilocks.new 5

def addRegisters (a b : Goldilocks) : List Goldilocks :=
  [addTag, 0, 0, 0, a, b, a + b, 0, 0, 0, 0, 0, 0, 0, 0, 0]

def zeroRegisters : List Goldilocks := List.replicate 16 0

/-- Eight bytes of a digest, little endian, as a field element. -/
def limb (digest : Particle) (start : Nat) : Goldilocks :=
  Goldilocks.new (Data.ofLeBytes ((digest.toList.drop start).take 8))

def addStep (hemera : Hemera) (zheng : Zheng) (material : List UInt8) : zheng.Witness :=
  let digest := hemera.hash material
  zheng.universalWitness (addRegisters (limb digest 0) (limb digest 8)) zeroRegisters

def verifyGroup (zheng : Zheng) (acc : zheng.Accumulator) (proof : zheng.Proof)
    (statement : Statement) : Bool :=
  if zheng.stepCount acc = 0 then false else zheng.verify proof acc statement

/-- Folding `steps` add rows into a blank accumulator has led to this state. -/
inductive Folded (zheng : Zheng) : zheng.Accumulator → zheng.Transcript → Nat → Prop where
  | blank : Folded zheng zheng.blank zheng.newTranscript 0
  | step {acc after : zheng.Accumulator} {transcript next : zheng.Transcript} {steps : Nat}
      {a b : Goldilocks} :
      Folded zheng acc transcript steps →
      zheng.fold acc (zheng.universalWitness (addRegisters a b) zeroRegisters) transcript =
        some (after, next) →
      Folded zheng after next (steps + 1)

/-- The completeness zheng documents: add rows can always be folded, are
counted, and what was folded can be decided into a proof that verifies. -/
structure Complete (zheng : Zheng) : Prop where
  fold_succeeds : ∀ {acc transcript steps}, Folded zheng acc transcript steps → ∀ a b, ∃ after next,
    zheng.fold acc (zheng.universalWitness (addRegisters a b) zeroRegisters) transcript =
      some (after, next)
  stepCount_eq : ∀ {acc transcript steps}, Folded zheng acc transcript steps →
    zheng.stepCount acc = Data.lenU64 steps
  decides : ∀ {acc transcript steps}, Folded zheng acc transcript (steps + 1) → ∀ statement,
    ∃ proof, zheng.decide acc statement = some proof ∧ zheng.verify proof acc statement = true

/-- What zheng documents of the step count: zero in a blank accumulator, one
more after every successful fold, up to the largest `u64`. -/
structure Counts (zheng : Zheng) : Prop where
  blank_eq : zheng.stepCount zheng.blank = 0
  fold_eq : ∀ {acc after : zheng.Accumulator} {witness : zheng.Witness}
    {transcript next : zheng.Transcript}, zheng.fold acc witness transcript = some (after, next) →
    zheng.stepCount after = Data.satAdd (zheng.stepCount acc) 1

/-- A stand-in that only counts steps. -/
def counting : Zheng where
  Accumulator := Nat
  Witness := Unit
  Transcript := Unit
  Proof := Unit
  blank := 0
  newTranscript := ()
  universalWitness _ _ := ()
  fold acc _ _ := some (acc + 1, ())
  decide _ _ := some ()
  verify _ _ _ := true
  stepCount acc := Data.lenU64 acc

theorem counting_complete : Complete counting where
  fold_succeeds _ _ _ := ⟨_, _, rfl⟩
  stepCount_eq folded := by
    have counted : ∀ {acc transcript steps}, Folded counting acc transcript steps → acc = steps := by
      intro acc transcript steps folded
      induction folded with
      | blank => rfl
      | step _ folds ih =>
          cases folds
          exact congrArg (· + 1) ih
    rw [← counted folded]
    rfl
  decides _ _ := ⟨(), rfl, rfl⟩

theorem counting_counts : Counts counting where
  blank_eq := rfl
  fold_eq := by
    intro acc after witness transcript next folds
    cases folds
    exact (Data.satAdd_lenU64 acc 1).symm

end Foculus.Step

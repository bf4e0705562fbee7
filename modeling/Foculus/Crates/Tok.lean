import Foculus.Crates.Tru

namespace Foculus

/-! # The tok crate: the conservation clip -/

inductive ConserveError where
  | empty
  | noPositiveShare
  | budgetZero
deriving DecidableEq, Repr

structure Tok where
  clipShares : List (Particle × Fx) → Fx → Except ConserveError (List (Particle × Fx))

/-- A stand-in for shares that do not exceed the directed total: nothing is clipped. -/
def Tok.unclipped : Tok where
  clipShares shares _ := .ok shares

end Foculus

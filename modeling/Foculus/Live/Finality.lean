import Foculus.Crates.Tru

namespace Foculus.Live

/-! # Domain-local finality (`src/finality.rs`) -/

/-- The particles of a domain and their focus, side by side. -/
structure Domain where
  particles : List Particle
  focus : List Fx
  parallel : particles.length = focus.length

inductive Finality where
  | final
  | pending
deriving DecidableEq, Repr

variable (tru : Tru)

namespace Domain

def mean (domain : Domain) : Fx :=
  if domain.focus.isEmpty then 0
  else tru.div (domain.focus.foldl (· + ·) 0) (tru.fromInt domain.focus.length)

/-- The mean of the squares less the square of the mean, or zero where rounding
makes that negative. -/
def variance (domain : Domain) : Fx :=
  if domain.focus.isEmpty then 0
  else
    let mu := domain.mean tru
    let sq := domain.focus.foldl (fun sq focus => sq + tru.mul focus focus) 0
    let meanSq := tru.div sq (tru.fromInt domain.focus.length)
    let muSq := tru.mul mu mu
    if tru.le muSq meanSq then meanSq - muSq else 0

end Domain

def crossesThreshold (phi : Fx) (domain : Domain) (kappaPrime : Fx) : Bool :=
  let mu := domain.mean tru
  if tru.le phi mu then false
  else
    let excess := phi - mu
    tru.lt (tru.mul (tru.mul kappaPrime kappaPrime) (domain.variance tru)) (tru.mul excess excess)

def certified (uncertMass gap kappaD c kappaPrime : Fx) : Bool :=
  let numer := tru.mul (Fx.one - kappaD) gap
  let denom := tru.mul c (Fx.one + kappaPrime)
  tru.lt (tru.mul uncertMass denom) numer

def finalizes (phi : Fx) (domain : Domain) (uncertMass gap kappaD c kappaPrime : Fx) : Finality :=
  if crossesThreshold tru phi domain kappaPrime && certified tru uncertMass gap kappaD c kappaPrime
  then .final else .pending

end Foculus.Live

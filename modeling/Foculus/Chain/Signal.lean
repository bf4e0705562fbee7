import Foculus.Crates.Hemera

namespace Foculus.Chain

/-! # Signals (`src/chain.rs`) -/

abbrev NeuronId := Particle

structure CyberlinkRecord where
  neuron : NeuronId
  «from» : Particle
  «to» : Particle
  token : Particle
  amount : UInt64
  valence : Int8
  height : UInt64
deriving DecidableEq

structure BoxMoveRecord where
  nullifier : Particle
  commitment : Option (Particle × UInt64)
deriving DecidableEq

def selfNetwork : Particle := Particle.zero

structure Signal where
  neuron : NeuronId
  network : Particle
  links : List CyberlinkRecord
  deltaPi : List (Particle × UInt64)
  boxMoves : List BoxMoveRecord
  prev : Particle
  step : UInt64
  height : UInt64
deriving DecidableEq

namespace Signal

def hash (hemera : Hemera) (sig : Signal) : Particle :=
  hemera.hash (sig.neuron.toList ++ u64Bytes sig.step ++ sig.prev.toList ++ sig.network.toList)

def linkBytes (link : CyberlinkRecord) : List UInt8 :=
  link.neuron.toList ++ link.from.toList ++ link.to.toList ++ link.token.toList ++
    u64Bytes link.amount ++ [link.valence.toUInt8] ++ u64Bytes link.height

def deltaBytes (delta : Particle × UInt64) : List UInt8 := delta.1.toList ++ u64Bytes delta.2

def moveBytes (move : BoxMoveRecord) : List UInt8 :=
  move.nullifier.toList ++
    match move.commitment with
    | some (point, value) => [1] ++ point.toList ++ u64Bytes value
    | none => [0]

def contentBytes (sig : Signal) : List UInt8 :=
  sig.neuron.toList ++ sig.network.toList ++ u64Bytes sig.step ++ sig.prev.toList ++
    sig.links.flatMap linkBytes ++ sig.deltaPi.flatMap deltaBytes ++ sig.boxMoves.flatMap moveBytes

def contentId (hemera : Hemera) (sig : Signal) : Particle := hemera.hash sig.contentBytes

structure SameContent (left right : Signal) : Prop where
  neuron : left.neuron = right.neuron
  network : left.network = right.network
  step : left.step = right.step
  prev : left.prev = right.prev
  links : left.links = right.links
  deltaPi : left.deltaPi = right.deltaPi
  boxMoves : left.boxMoves = right.boxMoves

namespace SameContent

variable {left middle right : Signal}

protected theorem refl (sig : Signal) : SameContent sig sig :=
  ⟨rfl, rfl, rfl, rfl, rfl, rfl, rfl⟩

protected theorem symm (same : SameContent left right) : SameContent right left :=
  ⟨same.neuron.symm, same.network.symm, same.step.symm, same.prev.symm, same.links.symm,
    same.deltaPi.symm, same.boxMoves.symm⟩

theorem contentBytes (same : SameContent left right) : left.contentBytes = right.contentBytes := by
  unfold Signal.contentBytes
  rw [same.neuron, same.network, same.step, same.prev, same.links, same.deltaPi, same.boxMoves]

end SameContent

/-- The signal without its block height, the one field outside the content id. -/
def content (sig : Signal) : Signal := { sig with height := 0 }

theorem sameContent_iff {left right : Signal} :
    SameContent left right ↔ left.content = right.content := by
  constructor
  · intro same
    unfold content
    rw [same.neuron, same.network, same.step, same.prev, same.links, same.deltaPi, same.boxMoves]
  · intro same
    exact ⟨congrArg (·.neuron) same, congrArg (·.network) same, congrArg (·.step) same,
      congrArg (·.prev) same, congrArg (·.links) same, congrArg (·.deltaPi) same,
      congrArg (·.boxMoves) same⟩

@[simp] theorem content_contentId (hemera : Hemera) (sig : Signal) :
    sig.content.contentId hemera = sig.contentId hemera := rfl

@[simp] theorem content_links (sig : Signal) : sig.content.links = sig.links := rfl

end Signal

end Foculus.Chain

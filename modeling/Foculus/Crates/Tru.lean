import Foculus.Crates.Hemera
import Foculus.Crates.Nebu

namespace Foculus

/-! # The tru crate

Fixed-point numbers are Goldilocks elements, added and subtracted in the field.
Their order, their scaled products and everything computed from a graph belong
to the crate and are parameters here.
-/

@[ext]
structure Fx where
  raw : Goldilocks
deriving DecidableEq

namespace Fx

instance : Zero Fx := ⟨⟨0⟩⟩
instance : Add Fx := ⟨fun left right => ⟨left.raw + right.raw⟩⟩
instance : Neg Fx := ⟨fun value => ⟨-value.raw⟩⟩
instance : Sub Fx := ⟨fun left right => ⟨left.raw - right.raw⟩⟩
instance : SMul ℕ Fx := ⟨fun count value => ⟨count • value.raw⟩⟩
instance : SMul ℤ Fx := ⟨fun count value => ⟨count • value.raw⟩⟩

theorem raw_injective : Function.Injective raw := fun _ _ same => Fx.ext same

instance : AddCommGroup Fx :=
  raw_injective.addCommGroup raw rfl (fun _ _ => rfl) (fun _ => rfl) (fun _ _ => rfl)
    (fun _ _ => rfl) (fun _ _ => rfl)

def one : Fx := ⟨2 ^ 32⟩

end Fx

structure Link where
  neuron : Particle
  «from» : Particle
  «to» : Particle
  amount : Nat
  valence : Int8
  price : Fx
deriving DecidableEq

structure Report where
  neuron : Particle
  belief : Fx
  prediction : Fx

structure Tru where
  Context : Type
  FocusingParams : Type
  noContext : Context
  defaultParams : FocusingParams
  epsilon : FocusingParams → Fx
  lt : Fx → Fx → Bool
  mul : Fx → Fx → Fx
  div : Fx → Fx → Fx
  fromInt : Int → Fx
  fromRatio : Int → Int → Fx
  ln : Fx → Fx
  floorToI64 : Fx → Int
  stake : Particle → Particle → Nat → Link
  /-- `compute_focusing` on the graph of the links: its nodes with their focus. -/
  computeFocusing : List Link → Context → FocusingParams → List (Particle × Fx)
  /-- The directed part of `impulse(base, batch, ctx, params, epsilon)`. -/
  impulse : List Link → List Link → Context → FocusingParams → Fx → Fx
  btsScores : (reports : List Report) → Vector Fx reports.length
  surprise : Fx → Fx → Fx

def Tru.le (tru : Tru) (left right : Fx) : Bool := tru.lt left right || left == right

/-- A stand-in that lets the model be run: numbers are compared without sign,
and every batch of links that is not empty moves the focus by one. -/
def Tru.unit : Tru where
  Context := Unit
  FocusingParams := Unit
  noContext := ()
  defaultParams := ()
  epsilon _ := 0
  lt left right := decide (left.raw.asU64 < right.raw.asU64)
  mul left right := ⟨.new (left.raw.asU64 * right.raw.asU64 / 2 ^ 32)⟩
  div left right := ⟨.new (left.raw.asU64 * 2 ^ 32 / right.raw.asU64)⟩
  fromInt value := ⟨(value * 2 ^ 32 : Int)⟩
  fromRatio top bottom := ⟨(top * 2 ^ 32 / bottom : Int)⟩
  ln _ := 0
  floorToI64 value := value.raw.asU64 / 2 ^ 32
  stake source target amount :=
    { neuron := Particle.zero, «from» := source, «to» := target, amount, valence := 1, price := Fx.one }
  computeFocusing links _ _ := links.map fun link => (link.to, ⟨.new link.amount⟩)
  impulse _ batch _ _ _ := if batch.isEmpty then 0 else Fx.one
  btsScores reports := Vector.replicate reports.length 0
  surprise _ _ := Fx.one

end Foculus

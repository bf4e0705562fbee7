import Foculus.Crates.Tru

namespace Foculus

/-! # The fixed-point numbers as a type of numbers

Code that only adds, multiplies, divides and compares is stated over any type
with these operations.  `tru.Number` is `Fx` with the operations of the crate;
the rationals are another such type, on which nothing is rounded and nothing
wraps around.
-/

def Tru.Number (_ : Tru) : Type := Fx

namespace Tru.Number

variable {tru : Tru}

instance : Zero tru.Number := inferInstanceAs (Zero Fx)

instance : One tru.Number := ⟨Fx.one⟩

instance : Add tru.Number := inferInstanceAs (Add Fx)

instance : Sub tru.Number := inferInstanceAs (Sub Fx)

instance : Mul tru.Number := ⟨tru.mul⟩

instance : Div tru.Number := ⟨tru.div⟩

instance : IntCast tru.Number := ⟨tru.fromInt⟩

instance : LE tru.Number := ⟨fun left right => tru.le left right = true⟩

instance : LT tru.Number := ⟨fun left right => tru.lt left right = true⟩

instance : DecidableLE tru.Number := fun left right =>
  inferInstanceAs (Decidable (tru.le left right = true))

instance : DecidableLT tru.Number := fun left right =>
  inferInstanceAs (Decidable (tru.lt left right = true))

end Tru.Number

end Foculus

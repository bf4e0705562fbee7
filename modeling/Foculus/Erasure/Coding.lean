import Foculus.Crates.Nebu
import Foculus.Data.Bytes
import Foculus.Data.Outcome

namespace Foculus.Erasure

open Data

/-! # Reed-Solomon coding over the Goldilocks field (`src/erasure.rs`)

A group of `k` field elements is a polynomial; shard `i` holds its value at the
`i`-th power of the root of unity.  `none` and `Outcome.panic` are the failed
assertions and out-of-bounds accesses of the source.
-/

structure Shard where
  index : Nat
  data : List Goldilocks
deriving DecidableEq

def isPowerOfTwo (n : Nat) : Bool := n != 0 && 2 ^ n.log2 == n

def chunks (data : List UInt8) : List (List UInt8) :=
  (List.range ((data.length + 6) / 7)).map fun chunk => (data.drop (7 * chunk)).take 7

def bytesToElements (data : List UInt8) : List Goldilocks :=
  (chunks data).map fun chunk => Goldilocks.new (orShifted chunk)

def elementsToBytes (elements : List Goldilocks) (originalLen : Nat) : List UInt8 :=
  (elements.flatMap fun element =>
    (List.range 7).map fun lane => UInt8.ofNat (element.asU64 >>> (lane * 8))).take originalLen

def resize (elements : List Goldilocks) (size : Nat) : List Goldilocks :=
  elements.take size ++ List.replicate (size - elements.length) 0

/-- The coefficients of group `g`, written into a zeroed buffer of size `n`. -/
def groupPoly (padded : List Goldilocks) (k n g : Nat) : List Goldilocks :=
  (List.range k).foldl (fun poly i => poly.set i (padded.getD (g * k + i) 0))
    (List.replicate n 0)

/-- One round of the encoding loop: every shard receives its evaluation. -/
def pushGroup (nebu : Nebu) (padded : List Goldilocks) (k n : Nat) (shards : List Shard)
    (g : Nat) : List Shard :=
  let poly := nebu.ntt (groupPoly padded k n g)
  shards.zipIdx.map fun (shard, s) => { shard with data := shard.data ++ [poly.getD s 0] }

def encode (nebu : Nebu) (data : List UInt8) (k n : Nat) : Option (List Shard) :=
  if !isPowerOfTwo n then none
  else if !(decide (1 ≤ k) && decide (k ≤ n)) then none
  else
    let elements := bytesToElements data
    let numGroups := (elements.length + k - 1) / k
    let padded := resize elements (numGroups * k)
    let shards := (List.range n).map fun i => { index := i, data := [] }
    some ((List.range numGroups).foldl (pushGroup nebu padded k n) shards)

def isCompleteFrom (n : Nat) (seen : List Bool) : List Shard → Bool
  | [] => true
  | shard :: rest =>
      if n ≤ shard.index || seen.getD shard.index false then false
      else isCompleteFrom n (seen.set shard.index true) rest

def isComplete (shards : List Shard) (n : Nat) : Bool :=
  shards.length == n && isCompleteFrom n (List.replicate n false) shards

/-- The scatter loop of `decode_full` for group `g`; `none` when a shard has no
element of that group. -/
def scatterGroup (g : Nat) (poly : List Goldilocks) : List Shard → Option (List Goldilocks)
  | [] => some poly
  | shard :: rest =>
      match shard.data[g]? with
      | some value => scatterGroup g (poly.set shard.index value) rest
      | none => none

def decodeFullGroup (nebu : Nebu) (shards : List Shard) (k n g : Nat) :
    Option (List Goldilocks) :=
  (scatterGroup g (List.replicate n 0) shards).map fun poly =>
    let poly := nebu.intt poly
    (List.range k).map fun i => poly.getD i 0

/-- Fast path: all `n` shards present, one inverse transform for each group. -/
def decodeFull (nebu : Nebu) (shards : List Shard) (k n numGroups originalLen : Nat) :
    Outcome String (List UInt8) := do
  let groups ← Outcome.expect ((List.range numGroups).mapM (decodeFullGroup nebu shards k n))
  return elementsToBytes groups.flatten originalLen

def lagrangeDenominator (points : List Goldilocks) (i : Nat) : Goldilocks :=
  (List.range points.length).foldl
    (fun denom j => if j ≠ i then denom * (points.getD i 0 - points.getD j 0) else denom) 1

/-- Multiply the polynomial in `basis` by `x + negX` in place: the inner loop
runs downwards so that it reads coefficients not yet overwritten. -/
def mulLinear (negX : Goldilocks) (deg : Nat) (basis : List Goldilocks) : List Goldilocks :=
  let basis := (List.range' 1 (deg + 1)).reverse.foldl
    (fun basis d => basis.set d (basis.getD (d - 1) 0 + basis.getD d 0 * negX)) basis
  basis.set 0 (basis.getD 0 0 * negX)

/-- The coefficients of `Π_{j≠i} (x - x_j)`, with the degree reached so far. -/
def lagrangeBasis (points : List Goldilocks) (i : Nat) : List Goldilocks × Nat :=
  (List.range points.length).foldl
    (fun (basis, deg) j =>
      if j ≠ i then (mulLinear (-points.getD j 0) deg basis, deg + 1) else (basis, deg))
    ((List.replicate points.length 0).set 0 1, 0)

def lagrangeInterpolate (points values : List Goldilocks) : List Goldilocks :=
  (List.range points.length).foldl
    (fun result i =>
      let scale := values.getD i 0 * (lagrangeDenominator points i)⁻¹
      List.zipWith (fun sum coefficient => sum + scale * coefficient) result
        (lagrangeBasis points i).1)
    (List.replicate points.length 0)

/-- The admission loop of `decode` over the shards it will use. -/
def checkAvailable (n numGroups : Nat) (seen : List Bool) : List Shard → Outcome String Unit
  | [] => .ok ()
  | shard :: rest =>
      let index := shard.index
      if n ≤ index then .err s!"shard index {index} out of range for n={n}"
      else if seen.getD index false then .err s!"duplicate shard index {index}"
      else if shard.data.length ≠ numGroups then .err "shards disagree on group count"
      else checkAvailable n numGroups (seen.set index true) rest

/-- General path of `decode` for group `g`: interpolate and keep `k` coefficients. -/
def decodeGroup (available : List Shard) (points : List Goldilocks) (k g : Nat) :
    List Goldilocks :=
  let coeffs := lagrangeInterpolate points (available.map fun shard => shard.data.getD g 0)
  (List.range k).map fun i => coeffs.getD i 0

def decode (nebu : Nebu) (shards : List Shard) (k n originalLen : Nat) :
    Outcome String (List UInt8) :=
  let count := shards.length
  if !isPowerOfTwo n then .err s!"n={n} must be a power of 2"
  else if count < k then .err s!"need at least {k} shards to reconstruct, got {count}"
  else match shards with
    | [] => .err "no shards provided"
    | first :: _ =>
        let numGroups := first.data.length
        if count == n && isComplete shards n then
          decodeFull nebu shards k n numGroups originalLen
        else do
          let omega := Goldilocks.rootOfUnity n
          let available := shards.take k
          checkAvailable n numGroups (List.replicate n false) available
          let points := available.map fun shard => omega ^ shard.index
          let elements := (List.range numGroups).flatMap (decodeGroup available points k)
          return elementsToBytes elements originalLen

end Foculus.Erasure

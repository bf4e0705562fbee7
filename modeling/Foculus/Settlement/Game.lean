import Foculus.Crates.Tru

namespace Foculus.Settlement

/-! # The cooperative game of a cluster (`src/settlement.rs`) -/

structure Contribution where
  neuron : Particle
  links : List Link
  surprise : Fx

def clamp01 (tru : Tru) (x : Fx) : Fx :=
  if tru.lt x 0 then 0 else if tru.lt Fx.one x then Fx.one else x

def Contribution.weighted (tru : Tru) (contribution : Contribution) : List Link :=
  let rho := clamp01 tru contribution.surprise
  contribution.links.map fun link => { link with price := tru.mul (clamp01 tru link.price) rho }

section Value

variable (tru : Tru) (base : List Link) (ctx : tru.Context) (params : tru.FocusingParams)

def value (coalition : List Contribution) : Fx :=
  tru.impulse base (coalition.flatMap (Contribution.weighted tru)) ctx params (tru.epsilon params)

/-- The loop of `marginals`: the contributors visited so far, their value, and
the marginals found for them. -/
def marginalsFrom (contribs : List Contribution) : List (Fin contribs.length) →
    List Contribution → Fx → List Fx → List Fx
  | [], _, _, out => out
  | i :: rest, visited, prev, out =>
      let visited := visited ++ [contribs.get i]
      let v := value tru base ctx params visited
      marginalsFrom contribs rest visited v (out.set i (v - prev))

def marginals (contribs : List Contribution) (order : List (Fin contribs.length)) : List Fx :=
  marginalsFrom tru base ctx params contribs order [] 0 (List.replicate contribs.length 0)

end Value

/-- The hash stream that drives the shuffle: a digest and how much of it is used. -/
structure Stream where
  digest : Particle
  byte : Nat

/-- Eight bytes of the stream; a used-up digest is replaced by its own hash. -/
def Stream.next (hemera : Hemera) (stream : Stream) : Nat × Stream :=
  let stream := if stream.byte + 8 > 32 then ⟨hemera.hash stream.digest.toList, 0⟩ else stream
  (Data.ofLeBytes ((stream.digest.toList.drop stream.byte).take 8),
    { stream with byte := stream.byte + 8 })

/-- The Fisher-Yates loop from position `i` down to 1. -/
def shuffle (hemera : Hemera) {n : Nat} : (i : Nat) → i < n → Stream → Vector (Fin n) n →
    Vector (Fin n) n
  | 0, _, _, perm => perm
  | i + 1, bound, stream, perm =>
      let drawn := stream.next hemera
      have within : drawn.1 % (i + 2) < n :=
        Nat.lt_of_lt_of_le (Nat.mod_lt _ (Nat.succ_pos _)) bound
      shuffle hemera i (Nat.lt_of_succ_lt bound) drawn.2
        (perm.swap (i + 1) (drawn.1 % (i + 2)) bound within)

def ordering (hemera : Hemera) (n : Nat) (beacon : Particle) (nonce : UInt64) : List (Fin n) :=
  if two : n < 2 then List.finRange n
  else
    let digest := hemera.hash (beacon.toList ++ u64Bytes nonce)
    (shuffle hemera (n - 1) (by omega) ⟨digest, 0⟩ (Vector.ofFn id)).toList

theorem shuffle_perm (hemera : Hemera) {n : Nat} (i : Nat) (bound : i < n) (stream : Stream)
    (perm : Vector (Fin n) n) :
    (shuffle hemera i bound stream perm).toList.Perm perm.toList := by
  induction i generalizing stream perm with
  | zero => exact .refl _
  | succ i ih =>
      rw [shuffle]
      exact (ih _ _ _).trans (Vector.swap_perm _ _).toList

/-- Whatever the hash stream yields, every position occurs once. -/
theorem ordering_perm (hemera : Hemera) (n : Nat) (beacon : Particle) (nonce : UInt64) :
    (ordering hemera n beacon nonce).Perm (List.finRange n) := by
  rw [ordering]
  split_ifs with two
  · exact .refl _
  · refine (shuffle_perm hemera _ _ _ _).trans (.of_eq ?_)
    rw [Vector.toList_ofFn, List.ofFn_id]

def shapley (hemera : Hemera) (tru : Tru) (base : List Link) (contribs : List Contribution)
    (ctx : tru.Context) (params : tru.FocusingParams) (samples : UInt64) (beacon : Particle) :
    List (Particle × Fx) :=
  if contribs.length = 0 ∨ samples = 0 then contribs.map fun contrib => (contrib.neuron, 0)
  else
    let acc := (List.range samples.toNat).foldl (fun acc s =>
      List.zipWith (· + ·) acc (marginals tru base ctx params contribs
        (ordering hemera contribs.length beacon (UInt64.ofNat s))))
      (List.replicate contribs.length 0)
    let inv := tru.div Fx.one (tru.fromInt samples.toInt64.toInt)
    List.zipWith (fun contrib sum => (contrib.neuron, tru.mul sum inv)) contribs acc

end Foculus.Settlement

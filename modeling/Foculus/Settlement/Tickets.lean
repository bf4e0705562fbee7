import Foculus.Data.FoldTree
import Foculus.Data.Saturating
import Foculus.Settlement.Game
import Std.Data.ExtTreeSet

namespace Foculus.Settlement

open Data

/-! # Settlement tickets and the fold accumulator (`src/tickets.rs`) -/

/-- The order of `BTreeSet<([u8; 32], u64)>`: the miner first, then the nonce. -/
def sampleOrder : Particle × UInt64 → Particle × UInt64 → Ordering :=
  compareLex (compareOn Prod.fst) (compareOn Prod.snd)

instance : Std.TransCmp sampleOrder := by
  unfold sampleOrder
  infer_instance

instance : Std.LawfulEqCmp sampleOrder where
  eq_of_compare := by
    intro left right same
    simp only [sampleOrder, compareLex_eq_eq, compareOn, Std.compare_eq_iff_eq] at same
    exact Prod.ext same.1 same.2

abbrev Samples := Std.ExtTreeSet (Particle × UInt64) sampleOrder

structure SettlementTicket where
  miner : Particle
  nonce : UInt64
  marginals : List Fx
  commitment : Particle
  score : UInt64

structure ClusterAcc where
  sumM : List Fx
  k : UInt64
  seen : Samples
  commitment : Particle

namespace ClusterAcc

def empty (nContrib : Nat) : ClusterAcc where
  sumM := List.replicate nContrib 0
  k := 0
  seen := ∅
  commitment := Particle.zero

def default : ClusterAcc := empty 0

def meanShares (tru : Tru) (acc : ClusterAcc) (neurons : List Particle) : List (Particle × Fx) :=
  if acc.k = 0 ∨ acc.sumM.length ≠ neurons.length then neurons.map fun neuron => (neuron, 0)
  else
    let inv := tru.div Fx.one (tru.fromInt acc.k.toInt64.toInt)
    (neurons.zip acc.sumM).map fun (neuron, sum) => (neuron, tru.mul sum inv)

def kMin (tru : Tru) (epsilon delta : Fx) : UInt64 :=
  if tru.le epsilon 0 || tru.le delta 0 || tru.le Fx.one delta then 1
  else
    let lnTerm := tru.ln (tru.div (tru.fromInt 2) delta)
    let den := tru.mul (tru.mul (tru.fromInt 2) epsilon) epsilon
    let ratio := tru.div lnTerm den
    let floor := max (tru.floorToI64 ratio) 0
    let k := if tru.fromInt floor = ratio then floor else floor + 1
    UInt64.ofInt (max k 1)

def meetsPrecision (tru : Tru) (acc : ClusterAcc) (epsilon delta : Fx) : Bool :=
  acc.k ≥ kMin tru epsilon delta

end ClusterAcc

def rawBytes (values : List Fx) : List UInt8 :=
  values.flatMap fun value => leBytes 8 value.raw.asU64

def commitMarginals (hemera : Hemera) (marginals : List Fx) : Particle :=
  hemera.hash (strBytes "foculus-marginal-v0" ++ leBytes 8 marginals.length ++ rawBytes marginals)

def scoreU64 (digest : Particle) : UInt64 :=
  UInt64.ofNat (ofLeBytes (digest.toList.take 8).reverse)

def settleScore (hemera : Hemera) (beacon cluster : Particle) (nonce : UInt64)
    (miner commitment : Particle) : UInt64 :=
  scoreU64 (hemera.hash (strBytes "foculus-ticket-v0" ++ beacon.toList ++ cluster.toList ++
    u64Bytes nonce ++ miner.toList ++ commitment.toList))

section Grinding

variable (hemera : Hemera) (tru : Tru) (base : List Link) (contribs : List Contribution)
  (ctx : tru.Context) (params : tru.FocusingParams) (beacon cluster miner : Particle)

def trySettlementTicket (nonce target : UInt64) : Option SettlementTicket :=
  if contribs.length = 0 then none
  else
    let order := ordering hemera contribs.length beacon nonce
    let m := marginals tru base ctx params contribs order
    let commitment := commitMarginals hemera m
    let score := settleScore hemera beacon cluster nonce miner commitment
    if score ≥ target then none else some { miner, nonce, marginals := m, commitment, score }

/-- The grinding loop from attempt `i` on, with the winners so far. -/
def grindFrom (startNonce : UInt64) (want : Nat) (target : UInt64) : (attempts i : Nat) →
    List SettlementTicket → List SettlementTicket
  | 0, _, out => out
  | attempts + 1, i, out =>
      if out.length ≥ want then out
      else
        match trySettlementTicket hemera tru base contribs ctx params beacon cluster miner
            (satAdd startNonce (lenU64 i)) target with
        | some ticket => grindFrom startNonce want target attempts (i + 1) (out ++ [ticket])
        | none => grindFrom startNonce want target attempts (i + 1) out

/-- What `grind_settlement` returns where its `Vec` has room for the tickets wanted. -/
def grindSettlement (startNonce maxAttempts : UInt64) (want : Nat) (target : UInt64) :
    List SettlementTicket :=
  grindFrom hemera tru base contribs ctx params beacon cluster miner startNonce want target
    maxAttempts.toNat 0 []

/-- The bytes of a ticket: the miner, the nonce, the `Vec` of its marginals, the
commitment and the score. -/
def ticketSize : Nat := 32 + 8 + 24 + 32 + 8

/-- `grind_settlement` with its `Vec::with_capacity(want)`; `none` is the overflow of
the capacity past `isize::MAX` bytes. -/
def checkedGrind (startNonce maxAttempts : UInt64) (want : Nat) (target : UInt64) :
    Option (List SettlementTicket) :=
  if want * ticketSize < 2 ^ 63 then
    some (grindSettlement hemera tru base contribs ctx params beacon cluster miner startNonce
      maxAttempts want target)
  else none

end Grinding

def verifySettlementTicket (hemera : Hemera) (ticket : SettlementTicket)
    (beacon cluster : Particle) (target : UInt64) : Bool :=
  if commitMarginals hemera ticket.marginals ≠ ticket.commitment then false
  else
    let score := settleScore hemera beacon cluster ticket.nonce ticket.miner ticket.commitment
    score == ticket.score && score < target

def accCommitment (hemera : Hemera) (acc : ClusterAcc) : Particle :=
  hemera.hash (strBytes "foculus-acc-v0" ++ u64Bytes acc.k ++ leBytes 8 acc.sumM.length ++
    rawBytes acc.sumM ++ acc.seen.toList.flatMap fun (miner, nonce) =>
      miner.toList ++ u64Bytes nonce)

def ClusterAcc.committed (hemera : Hemera) (acc : ClusterAcc) : ClusterAcc :=
  { acc with commitment := accCommitment hemera acc }

def absorbTicket (hemera : Hemera) (acc : ClusterAcc) (ticket : SettlementTicket) : ClusterAcc :=
  if acc.seen.contains (ticket.miner, ticket.nonce) then acc
  else
    let seen := acc.seen.insert (ticket.miner, ticket.nonce)
    if acc.sumM.length ≠ ticket.marginals.length ∧ acc.k ≠ 0 then
      -- dimension mismatch: the pair is remembered, the sample dropped
      { acc with seen }
    else
      let sumM := if acc.sumM.length ≠ ticket.marginals.length then
        List.replicate ticket.marginals.length 0 else acc.sumM
      ClusterAcc.committed hemera { acc with
        sumM := List.zipWith (· + ·) sumM ticket.marginals
        k := satAdd acc.k 1
        seen }

def selfFold (hemera : Hemera) (nContrib : Nat) (tickets : List SettlementTicket) : ClusterAcc :=
  tickets.foldl (absorbTicket hemera) (ClusterAcc.empty nContrib)

def foldAcc (hemera : Hemera) (left right : ClusterAcc) : ClusterAcc :=
  let seen := left.seen ∪ right.seen
  ClusterAcc.committed hemera <|
    if left.sumM.length = right.sumM.length then {
      sumM := List.zipWith (· + ·) left.sumM right.sumM
      -- The overlap branch computes the same sums once more; the counts that it adds to decide
      -- so are taken to wrap.
      k := if (left.seen ∩ right.seen).size = 0 then satAdd left.k right.k else lenU64 seen.size
      seen
      commitment := Particle.zero }
    else if left.k ≥ right.k then { left with seen, k := lenU64 seen.size }
    else { right with seen, k := lenU64 seen.size }

def pairId (hemera : Hemera) (left right : ClusterAcc) : Particle :=
  let (a, b) := if left.commitment > right.commitment then (right.commitment, left.commitment)
    else (left.commitment, right.commitment)
  hemera.hash (a.toList ++ b.toList)

def foldScore (hemera : Hemera) (beacon cluster : Particle) (level : Nat) (pair : Particle)
    (nonce : UInt64) (resultCommitment : Particle) : UInt64 :=
  scoreU64 (hemera.hash (strBytes "foculus-fold-v0" ++ beacon.toList ++ cluster.toList ++
    strBytes "fold" ++ leBytes 4 level ++ pair.toList ++ u64Bytes nonce ++
    resultCommitment.toList))

structure FoldTicket where
  miner : Particle
  nonce : UInt64
  level : Nat
  pairId : Particle
  left : ClusterAcc
  right : ClusterAcc
  result : ClusterAcc
  score : UInt64

def tryFoldTicket (hemera : Hemera) (beacon cluster miner : Particle) (level : Nat)
    (left right : ClusterAcc) (nonce target : UInt64) : Option FoldTicket :=
  let result := foldAcc hemera left right
  let pid := pairId hemera left right
  let score := foldScore hemera beacon cluster level pid nonce result.commitment
  if score ≥ target then none
  else some { miner, nonce, level, pairId := pid, left, right, result, score }

def grindFold (hemera : Hemera) (beacon cluster miner : Particle) (level : Nat)
    (left right : ClusterAcc) (startNonce maxAttempts target : UInt64) : Option FoldTicket :=
  (List.range maxAttempts.toNat).findSome? fun i =>
    tryFoldTicket hemera beacon cluster miner level left right (satAdd startNonce (lenU64 i)) target

/-- The level number is a `u32` that stops at its maximum. -/
def levelU32 (level : Nat) : Nat := min level (2 ^ 32 - 1)

def assembleFoldTree (hemera : Hemera) (beacon cluster miner : Particle)
    (leaves : List ClusterAcc) (foldTarget : UInt64) : ClusterAcc :=
  let combine (level : Nat) (left right : ClusterAcc) : ClusterAcc :=
    ((grindFold hemera beacon cluster miner (levelU32 level) left right 0 64 foldTarget).map
      FoldTicket.result).getD (foldAcc hemera left right)
  (FoldTree.levels combine leaves.length 0 leaves).headD ClusterAcc.default

/-- The root of the fold tree, without its lottery and its proofs. -/
def treeRoot (hemera : Hemera) (leaves : List ClusterAcc) : ClusterAcc :=
  (FoldTree.levels (fun _ => foldAcc hemera) leaves.length 0 leaves).headD ClusterAcc.default

end Foculus.Settlement

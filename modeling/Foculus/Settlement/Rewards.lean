import Foculus.Crates
import Foculus.Epoch.Beacon
import Foculus.Settlement.TicketProof

namespace Foculus.Settlement

open Data

/-! # Reward claims and settle receipts (`src/rewards.rs`) -/

structure RewardClaim where
  id : Particle
  neuron : Particle
  links : List Link
  belief : Fx
  prediction : Fx

structure SettledShare where
  neuron : Particle
  share : Fx
  amount : UInt64
deriving DecidableEq

structure SettleReceipt (zheng : Zheng) where
  epoch : UInt64
  beacon : Particle
  claimsRoot : Particle
  receiptHash : Particle
  directedTotal : Fx
  budget : UInt64
  shares : List SettledShare
  beaconArtifact : Option Epoch.BeaconArtifact
  ticketSeal : Option (FoldSeal zheng)
  foldSeal : Option (FoldSeal zheng)
  sampleCount : UInt64

inductive RewardError where
  | emptyClaims
  | noPositiveShare
  | budgetZero
  | noTickets
  | insufficientPrecision (k kMin : UInt64)
deriving DecidableEq, Repr

structure TicketPolicy where
  want : Nat
  maxAttempts : UInt64
  startNonce : UInt64
  settleTarget : UInt64
  foldTarget : UInt64
  miner : Particle
  precisionEpsilon : Fx
  precisionDelta : Fx

/-- `easy_target` of `src/tickets.rs`. -/
def easyTarget : UInt64 := UInt64.ofNat (2 ^ 64 - 1)

def TicketPolicy.default : TicketPolicy where
  want := 8
  maxAttempts := 256
  startNonce := 0
  settleTarget := easyTarget
  foldTarget := easyTarget
  miner := Particle.zero
  precisionEpsilon := Fx.one
  precisionDelta := Fx.one

section Claims

variable (tru : Tru)

def valenceToPrediction (valence : Int8) : Fx :=
  if valence = 1 then tru.fromRatio 3 4
  else if valence = -1 then tru.fromRatio 1 4
  else tru.fromRatio 1 2

def claimFromLinks (id neuron : Particle) (links : List Link) (valence : Int8) : RewardClaim where
  id := id
  neuron := neuron
  links := links
  belief := tru.fromRatio 3 4
  prediction := valenceToPrediction tru valence

def RewardClaim.report (claim : RewardClaim) : Report where
  neuron := claim.neuron
  belief := claim.belief
  prediction := claim.prediction

def sMax (scores : List Fx) : Fx :=
  let best := scores.foldl (fun best score => if tru.lt best score then score else best) Fx.one
  if tru.le best 0 then Fx.one else best

/-- The surprise of each claim.  A single claim has no crowd to be scored
against, and scores that do not tell the claims apart count for nothing. -/
def rhos (claims : List RewardClaim) : List Fx :=
  let scores := (tru.btsScores (claims.map RewardClaim.report)).toList
  let rhos := if claims.length < 2 then [Fx.one]
    else scores.map fun score => tru.surprise score (sMax tru scores)
  if claims.length ≥ 2 ∧ rhos.all (tru.le · 0) then List.replicate claims.length Fx.one else rhos

def contributionsWithRho (claims : List RewardClaim) : List Contribution :=
  List.zipWith (fun claim rho => { neuron := claim.neuron, links := claim.links, surprise := rho })
    claims (rhos tru claims)

def directedTotal (base : List Link) (claims : List RewardClaim) (ctx : tru.Context)
    (params : tru.FocusingParams) : Fx :=
  tru.impulse base (claims.flatMap RewardClaim.links) ctx params (tru.epsilon params)

theorem rhos_length (claims : List RewardClaim) : claims.length ≤ (rhos tru claims).length := by
  simp only [rhos]
  by_cases small : claims.length < 2
  · rw [if_pos small, if_neg (fun crowd => Nat.not_lt.mpr crowd.1 small)]
    exact Nat.le_of_lt_succ small
  · rw [if_neg small]
    split_ifs
    · rw [List.length_replicate]
    · simp

@[simp] theorem contributionsWithRho_length (claims : List RewardClaim) :
    (contributionsWithRho tru claims).length = claims.length := by
  rw [contributionsWithRho, List.length_zipWith]
  exact Nat.min_eq_left (rhos_length tru claims)

theorem contributionsWithRho_map {α : Type} {ofContribution : Contribution → α}
    {ofClaim : RewardClaim → α}
    (same : ∀ claim rho, ofContribution ⟨claim.neuron, claim.links, rho⟩ = ofClaim claim)
    (claims : List RewardClaim) :
    (contributionsWithRho tru claims).map ofContribution = claims.map ofClaim := by
  have enough := rhos_length tru claims
  rw [contributionsWithRho]
  generalize rhos tru claims = rhos at enough
  induction claims generalizing rhos with
  | nil => rfl
  | cons claim rest ih =>
      cases rhos with
      | nil => simp at enough
      | cons rho others =>
          rw [List.zipWith_cons_cons, List.map_cons, List.map_cons, same,
            ih others (Nat.le_of_succ_le_succ enough)]

theorem contributionsWithRho_neurons (claims : List RewardClaim) :
    (contributionsWithRho tru claims).map Contribution.neuron = claims.map RewardClaim.neuron :=
  contributionsWithRho_map tru (fun _ _ => rfl) claims

theorem contributionsWithRho_links (claims : List RewardClaim) :
    (contributionsWithRho tru claims).map Contribution.links = claims.map RewardClaim.links :=
  contributionsWithRho_map tru (fun _ _ => rfl) claims

end Claims

section Budget

variable (tru : Tru)

/-- The weight of a share in the split: its raw value when positive. -/
def fxWeight (x : Fx) : Nat := if tru.le x 0 then 0 else x.raw.asU64

def weights (conserved : List (Particle × Fx)) : List Nat :=
  conserved.map fun entry => fxWeight tru entry.2

/-- The split loop from some share on: the last share takes what is left. -/
def splitBudget (budget : UInt64) (sumW : Nat) :
    List (Particle × Fx) → (allocated : UInt64) → List SettledShare
  | [], _ => []
  | (neuron, share) :: rest, allocated =>
      let weight := fxWeight tru share
      if rest.isEmpty then
        let amt := satSub budget allocated
        [{ neuron, share, amount := if weight = 0 then 0 else amt }]
      else
        let a := UInt64.ofNat (weight * budget.toNat / sumW)
        { neuron, share, amount := if weight = 0 then 0 else a } ::
          splitBudget budget sumW rest (satAdd allocated a)

/-- The remainder goes to the first share of positive weight. -/
def payRemainder (remainder : UInt64) : List SettledShare → List SettledShare
  | [] => []
  | settled :: rest =>
      if fxWeight tru settled.share > 0 then
        { settled with amount := satAdd settled.amount remainder } :: rest
      else settled :: payRemainder remainder rest

def conserveError : ConserveError → RewardError
  | .empty => .emptyClaims
  | .noPositiveShare => .noPositiveShare
  | .budgetZero => .budgetZero

def allocateBudget (tok : Tok) (raw : List (Particle × Fx)) (budget : UInt64)
    (directedTotal : Fx) : Except RewardError (List SettledShare) :=
  match tok.clipShares raw directedTotal with
  | .error reason => .error (conserveError reason)
  | .ok conserved =>
      let sumW := (weights tru conserved).sum
      if sumW = 0 then .error .noPositiveShare
      else
        let out := splitBudget tru budget sumW conserved 0
        let out := List.zipWith (fun weight settled =>
          if weight = 0 then { settled with amount := 0 } else settled) (weights tru conserved) out
        let paid := (out.map SettledShare.amount).sum
        .ok (if paid < budget then payRemainder tru (budget - paid) out else out)

end Budget

def SettledShare.bytes (settled : SettledShare) : List UInt8 :=
  settled.neuron.toList ++ u64Bytes settled.amount

def sortByNeuron (shares : List SettledShare) : List SettledShare :=
  shares.insertionSort fun left right => left.neuron ≤ right.neuron

def receiptPreimage (epoch : UInt64) (beacon : Particle) (shares : List SettledShare) :
    List UInt8 :=
  u64Bytes epoch ++ beacon.toList ++ (sortByNeuron shares).flatMap SettledShare.bytes

def receiptHash (hemera : Hemera) (epoch : UInt64) (beacon : Particle)
    (shares : List SettledShare) : Particle :=
  hemera.hash (receiptPreimage epoch beacon shares)

def checkOption {α : Type} (check : α → Bool) : Option α → Bool
  | none => true
  | some value => check value

def verifyReceipt (hemera : Hemera) (zheng : Zheng) (receipt : SettleReceipt zheng) : Bool :=
  receipt.receiptHash == receiptHash hemera receipt.epoch receipt.beacon receipt.shares &&
  checkOption (fun art => Epoch.verifyBeacon hemera art && art.beacon == receipt.beacon)
    receipt.beaconArtifact &&
  checkOption (verifyFoldSeal zheng) receipt.ticketSeal &&
  checkOption (verifyFoldSeal zheng) receipt.foldSeal

def shareOf {zheng : Zheng} (receipt : SettleReceipt zheng) (neuron : Particle) : UInt64 :=
  ((receipt.shares.find? fun settled => settled.neuron == neuron).map SettledShare.amount).getD 0

end Foculus.Settlement

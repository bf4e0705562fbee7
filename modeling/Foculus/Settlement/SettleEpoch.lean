import Foculus.Settlement.Conservation
import Foculus.Settlement.MarginalCert

namespace Foculus.Settlement

open Data Epoch

/-! # Settling an epoch in one call (`settle_epoch` and `settle_with_peer_accs` of `src/rewards.rs`) -/

section Settle

variable (crates : Crates) (epoch : UInt64) (prevBeacon : Particle) (base : List Link)
  (claims : List RewardClaim) (ctx : crates.tru.Context) (params : crates.tru.FocusingParams)

def settleEpoch (samples budget : UInt64) : Except RewardError (SettleReceipt crates.zheng) :=
  if claims.isEmpty then .error .emptyClaims
  else if budget = 0 then .error .budgetZero
  else
    let root := claimsRoot crates.hemera (claims.map RewardClaim.id)
    let art := openBeacon crates.hemera epoch prevBeacon root [] testOuterT
    if !verifyBeacon crates.hemera art then .error .noTickets
    else do
      let contribs := contributionsWithRho crates.tru claims
      let total := directedTotal crates.tru base claims ctx params
      let rawShares := shapley crates.hemera crates.tru base contribs ctx params samples art.beacon
      let shares ← allocateBudget crates.tru crates.tok rawShares budget total
      return {
        epoch
        beacon := art.beacon
        claimsRoot := root
        receiptHash := receiptHash crates.hemera epoch art.beacon shares
        directedTotal := total
        budget
        shares
        beaconArtifact := some art
        ticketSeal := none
        foldSeal := none
        sampleCount := samples }

/-- The seal over the tickets, checked once more; without tickets there is none. -/
def sealedTickets (contribs : List Contribution) (beacon cluster : Particle)
    (tickets : List SettlementTicket) : Except RewardError (Option (FoldSeal crates.zheng)) :=
  if tickets.isEmpty then .ok none
  else
    match proveReplayedBatch crates.hemera crates.tru base contribs ctx params beacon crates.zheng
        cluster tickets with
    | .error _ => .error .noTickets
    | .ok sealed => if !verifyFoldSeal crates.zheng sealed then .error .noTickets else .ok (some sealed)

/-- The proven fold tree when its seal verifies, else the assembled one. -/
def foldRoot (beacon cluster miner : Particle) (foldTarget : UInt64) (leaves : List ClusterAcc) :
    ClusterAcc × Option (FoldSeal crates.zheng) :=
  let assembled := (assembleFoldTree crates.hemera beacon cluster miner leaves foldTarget, none)
  match proveFoldTree crates.hemera crates.zheng beacon cluster leaves with
  | .ok (root, sealed) => if verifyFoldSeal crates.zheng sealed then (root, some sealed) else assembled
  | .error _ => assembled

def settleWithPeerAccs (budget : UInt64) (policy : TicketPolicy) (peerAccs : List ClusterAcc) :
    Except RewardError (SettleReceipt crates.zheng) :=
  if claims.isEmpty then .error .emptyClaims
  else if budget = 0 then .error .budgetZero
  else
    let cluster := claimsRoot crates.hemera (claims.map RewardClaim.id)
    let art := openBeacon crates.hemera epoch prevBeacon cluster [] testOuterT
    if !verifyBeacon crates.hemera art then .error .noTickets
    else
      let contribs := contributionsWithRho crates.tru claims
      let total := directedTotal crates.tru base claims ctx params
      let tickets := grindSettlement crates.hemera crates.tru base contribs ctx params art.beacon
        cluster policy.miner policy.startNonce policy.maxAttempts policy.want policy.settleTarget
      if tickets.isEmpty ∧ peerAccs.isEmpty then .error .noTickets
      else do
        let ticketSeal ← sealedTickets crates base ctx params contribs art.beacon cluster tickets
        let leaves := selfFold crates.hemera contribs.length tickets :: peerAccs
        let (root, foldSeal) :=
          foldRoot crates art.beacon cluster policy.miner policy.foldTarget leaves
        if root.k = 0 then .error .noTickets
        else if !root.meetsPrecision crates.tru policy.precisionEpsilon policy.precisionDelta then
          .error (.insufficientPrecision root.k
            (ClusterAcc.kMin crates.tru policy.precisionEpsilon policy.precisionDelta))
        else do
          let rawShares := root.meanShares crates.tru (contribs.map Contribution.neuron)
          let shares ← allocateBudget crates.tru crates.tok rawShares budget total
          return {
            epoch
            beacon := art.beacon
            claimsRoot := cluster
            receiptHash := receiptHash crates.hemera epoch art.beacon shares
            directedTotal := total
            budget
            shares
            beaconArtifact := some art
            ticketSeal
            foldSeal
            sampleCount := root.k }

end Settle

/-! A receipt that is returned pays its budget and carries its own hash. -/

section Sound

variable {crates : Crates} {epoch : UInt64} {prevBeacon : Particle} {base : List Link}
  {claims : List RewardClaim} {ctx : crates.tru.Context} {params : crates.tru.FocusingParams}

/-- The quiet beacon of the claims. -/
def quietArtifact (crates : Crates) (epoch : UInt64) (prevBeacon : Particle)
    (claims : List RewardClaim) : BeaconArtifact :=
  openBeacon crates.hemera epoch prevBeacon
    (claimsRoot crates.hemera (claims.map RewardClaim.id)) [] testOuterT

theorem quietArtifact_verified (crates : Crates) (epoch : UInt64) (prevBeacon : Particle)
    (claims : List RewardClaim) :
    verifyBeacon crates.hemera (quietArtifact crates epoch prevBeacon claims) = true :=
  verifyBeacon_openBeacon crates.hemera _ _ _ _ (by decide)

/-- What the settling node grinds under the quiet beacon. -/
def quietTickets (crates : Crates) (epoch : UInt64) (prevBeacon : Particle) (base : List Link)
    (claims : List RewardClaim) (ctx : crates.tru.Context) (params : crates.tru.FocusingParams)
    (policy : TicketPolicy) : List SettlementTicket :=
  grindSettlement crates.hemera crates.tru base (contributionsWithRho crates.tru claims) ctx params
    (quietArtifact crates epoch prevBeacon claims).beacon
    (quietArtifact crates epoch prevBeacon claims).claimsRoot policy.miner policy.startNonce
    policy.maxAttempts policy.want policy.settleTarget

/-- The node's own accumulator and those of its peers. -/
def quietLeaves (crates : Crates) (epoch : UInt64) (prevBeacon : Particle) (base : List Link)
    (claims : List RewardClaim) (ctx : crates.tru.Context) (params : crates.tru.FocusingParams)
    (policy : TicketPolicy) (peerAccs : List ClusterAcc) : List ClusterAcc :=
  selfFold crates.hemera (contributionsWithRho crates.tru claims).length
    (quietTickets crates epoch prevBeacon base claims ctx params policy) :: peerAccs

def quietReceipt (crates : Crates) (epoch : UInt64) (prevBeacon : Particle)
    (claims : List RewardClaim) (directedTotal : Fx) (budget : UInt64)
    (ticketSeal foldSeal : Option (FoldSeal crates.zheng)) (sampleCount : UInt64)
    (shares : List SettledShare) : SettleReceipt crates.zheng where
  epoch
  beacon := (quietArtifact crates epoch prevBeacon claims).beacon
  claimsRoot := (quietArtifact crates epoch prevBeacon claims).claimsRoot
  receiptHash :=
    receiptHash crates.hemera epoch (quietArtifact crates epoch prevBeacon claims).beacon shares
  directedTotal
  budget
  shares
  beaconArtifact := some (quietArtifact crates epoch prevBeacon claims)
  ticketSeal
  foldSeal
  sampleCount

theorem settleEpoch_eq_ok_iff {samples budget : UInt64} {receipt : SettleReceipt crates.zheng} :
    settleEpoch crates epoch prevBeacon base claims ctx params samples budget = .ok receipt ↔
      claims ≠ [] ∧ budget ≠ 0 ∧ ∃ shares,
        allocateBudget crates.tru crates.tok
          (shapley crates.hemera crates.tru base (contributionsWithRho crates.tru claims) ctx params
            samples (quietArtifact crates epoch prevBeacon claims).beacon) budget
          (directedTotal crates.tru base claims ctx params) = .ok shares ∧
        receipt = quietReceipt crates epoch prevBeacon claims
          (directedTotal crates.tru base claims ctx params) budget none none samples shares := by
  have verified := quietArtifact_verified crates epoch prevBeacon claims
  rw [quietArtifact] at verified
  simp only [settleEpoch, verified]
  constructor
  · intro settled
    split_ifs at settled with empty broke
    · obtain ⟨shares, allocated, result⟩ := bind_eq_ok_iff.mp settled
      cases result
      exact ⟨by simpa using empty, broke, shares, allocated, rfl⟩
  · intro settles
    obtain ⟨inhabited, funded, shares, allocated, rfl⟩ := settles
    rw [if_neg (by simpa using inhabited), if_neg funded]
    exact bind_eq_ok_iff.mpr ⟨shares, allocated, rfl⟩

theorem settleEpoch_sound {samples budget : UInt64} {receipt : SettleReceipt crates.zheng}
    (settled : settleEpoch crates epoch prevBeacon base claims ctx params samples budget =
      .ok receipt) :
    (amounts receipt.shares).sum = receipt.budget.toNat ∧
      receipt.receiptHash =
        receiptHash crates.hemera receipt.epoch receipt.beacon receipt.shares := by
  obtain ⟨_, _, _, allocated, rfl⟩ := settleEpoch_eq_ok_iff.mp settled
  exact ⟨allocateBudget_sum allocated, rfl⟩

theorem settleWithPeerAccs_eq_ok_iff {budget : UInt64} {policy : TicketPolicy}
    {peerAccs : List ClusterAcc} {receipt : SettleReceipt crates.zheng} :
    settleWithPeerAccs crates epoch prevBeacon base claims ctx params budget policy peerAccs =
        .ok receipt ↔
      claims ≠ [] ∧ budget ≠ 0 ∧
      ¬ (quietTickets crates epoch prevBeacon base claims ctx params policy = [] ∧
        peerAccs = []) ∧
      ∃ ticketSeal root foldSeal shares,
        sealedTickets crates base ctx params (contributionsWithRho crates.tru claims)
          (quietArtifact crates epoch prevBeacon claims).beacon
          (quietArtifact crates epoch prevBeacon claims).claimsRoot
          (quietTickets crates epoch prevBeacon base claims ctx params policy) = .ok ticketSeal ∧
        foldRoot crates (quietArtifact crates epoch prevBeacon claims).beacon
          (quietArtifact crates epoch prevBeacon claims).claimsRoot policy.miner policy.foldTarget
          (quietLeaves crates epoch prevBeacon base claims ctx params policy peerAccs) =
          (root, foldSeal) ∧
        root.k ≠ 0 ∧
        root.meetsPrecision crates.tru policy.precisionEpsilon policy.precisionDelta = true ∧
        allocateBudget crates.tru crates.tok
          (root.meanShares crates.tru
            ((contributionsWithRho crates.tru claims).map Contribution.neuron)) budget
          (directedTotal crates.tru base claims ctx params) = .ok shares ∧
        receipt = quietReceipt crates epoch prevBeacon claims
          (directedTotal crates.tru base claims ctx params) budget ticketSeal foldSeal root.k
          shares := by
  have verified := quietArtifact_verified crates epoch prevBeacon claims
  rw [quietArtifact] at verified
  have passes {check : Bool} : ¬ (!check) = true → check = true := by simp
  rw [← List.isEmpty_iff (l := quietTickets crates epoch prevBeacon base claims ctx params policy),
    ← List.isEmpty_iff (l := peerAccs)]
  simp only [settleWithPeerAccs, verified, Bool.not_true, Bool.false_eq_true, if_false]
  constructor
  · intro settled
    split at settled
    · cases settled
    next inhabited =>
    split at settled
    · cases settled
    next funded =>
    split at settled
    · cases settled
    next busy =>
    obtain ⟨ticketSeal, sealed, settled⟩ := bind_eq_ok_iff.mp settled
    split_ifs at settled with nothing imprecise
    obtain ⟨shares, allocated, result⟩ := bind_eq_ok_iff.mp settled
    cases result
    exact ⟨by simpa using inhabited, funded, busy, ticketSeal, _, _, shares, sealed, rfl, nothing,
      passes imprecise, allocated, rfl⟩
  · intro settles
    obtain ⟨inhabited, funded, busy, ticketSeal, root, foldSeal, shares, sealed, folded, counted,
      precise, allocated, rfl⟩ := settles
    rw [if_neg (by simpa using inhabited), if_neg funded]
    refine (if_neg busy).trans (bind_eq_ok_iff.mpr ⟨ticketSeal, sealed, ?_⟩)
    have cluster : (openBeacon crates.hemera epoch prevBeacon
        (claimsRoot crates.hemera (claims.map RewardClaim.id)) [] testOuterT).claimsRoot =
          claimsRoot crates.hemera (claims.map RewardClaim.id) := rfl
    simp only [quietLeaves, quietTickets, quietArtifact, cluster] at folded
    rw [folded, if_neg counted, precise]
    exact bind_eq_ok_iff.mpr ⟨shares, allocated, rfl⟩

theorem settleWithPeerAccs_sound {budget : UInt64} {policy : TicketPolicy}
    {peerAccs : List ClusterAcc} {receipt : SettleReceipt crates.zheng}
    (settled : settleWithPeerAccs crates epoch prevBeacon base claims ctx params budget policy
      peerAccs = .ok receipt) :
    (amounts receipt.shares).sum = receipt.budget.toNat ∧
      receipt.receiptHash =
        receiptHash crates.hemera receipt.epoch receipt.beacon receipt.shares := by
  obtain ⟨_, _, _, _, _, _, _, _, _, _, _, allocated, rfl⟩ :=
    settleWithPeerAccs_eq_ok_iff.mp settled
  exact ⟨allocateBudget_sum allocated, rfl⟩

theorem foldRoot_eq_iff (complete : Step.Complete crates.zheng) {beacon cluster miner : Particle}
    {foldTarget : UInt64} {leaves : List ClusterAcc} (nonempty : leaves ≠ []) {root : ClusterAcc}
    {foldSeal : Option (FoldSeal crates.zheng)} :
    foldRoot crates beacon cluster miner foldTarget leaves = (root, foldSeal) ↔
      root = treeRoot crates.hemera leaves ∧ ∃ made, foldSeal = some made ∧
        proveFoldTree crates.hemera crates.zheng beacon cluster leaves = .ok (root, made) ∧
        verifyFoldSeal crates.zheng made = true := by
  obtain ⟨made, proven, verified⟩ := proveFoldTree_ok complete crates.hemera beacon cluster nonempty
  simp only [foldRoot, proven, verified, if_true, Prod.mk.injEq, Except.ok.injEq]
  constructor
  · intro same
    obtain ⟨rfl, rfl⟩ := same
    exact ⟨rfl, made, rfl, ⟨rfl, rfl⟩, verified⟩
  · intro folds
    obtain ⟨_, _, rfl, ⟨rfl, rfl⟩, _⟩ := folds
    exact ⟨rfl, rfl⟩

end Sound

end Foculus.Settlement

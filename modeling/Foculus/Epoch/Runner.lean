import Foculus.Settlement.Conservation
import Foculus.Settlement.MarginalCert

namespace Foculus.Epoch

open Data Settlement

/-! # The epoch runner (`src/epoch.rs`)

Every call either returns an error and leaves the runner as it is, or returns
the runner after the call; what the source returns by reference (the claims
root, the beacon, the receipt) is a field of that runner. -/

inductive EpochPhase where
  | propose
  | frozen
  | beaconReady
  | settled
deriving DecidableEq, Repr

inductive EpochError where
  | wrongPhase
  | emptyClaims
  | notFrozen
  | noBeacon
  | beaconInvalid
  | budgetZero
  | noTickets
  | proof (reason : ProofError)
  | reward (reason : RewardError)
  | insufficientPrecision (k kMin : UInt64)
deriving DecidableEq, Repr

structure EpochRunner (zheng : Zheng) where
  epoch : UInt64
  prevBeacon : Particle
  phase : EpochPhase
  claims : List RewardClaim
  claimsRoot : Option Particle
  beacon : Option BeaconArtifact
  receipt : Option (SettleReceipt zheng)
  outerT : UInt64
  budget : UInt64

namespace EpochRunner

def new (zheng : Zheng) (epoch : UInt64) (prevBeacon : Particle) : EpochRunner zheng where
  epoch := epoch
  prevBeacon := prevBeacon
  phase := .propose
  claims := []
  claimsRoot := none
  beacon := none
  receipt := none
  outerT := testOuterT
  budget := 1000

def genesis (zheng : Zheng) (epoch : UInt64) : EpochRunner zheng := new zheng epoch genesisPrev

section Window

variable {zheng : Zheng}

def propose (runner : EpochRunner zheng) (claim : RewardClaim) :
    Except EpochError (EpochRunner zheng) :=
  if runner.phase ≠ .propose then .error .wrongPhase
  else .ok { runner with claims := runner.claims ++ [claim] }

def freeze (hemera : Hemera) (runner : EpochRunner zheng) :
    Except EpochError (EpochRunner zheng) :=
  if runner.phase ≠ .propose then .error .wrongPhase
  else if runner.claims.isEmpty then .error .emptyClaims
  else
    let root := Epoch.claimsRoot hemera (runner.claims.map RewardClaim.id)
    .ok { runner with claimsRoot := some root, phase := .frozen }

def openBeacon (hemera : Hemera) (runner : EpochRunner zheng) (signalVdfs : List VdfProof) :
    Except EpochError (EpochRunner zheng) :=
  if runner.phase ≠ .frozen then .error .wrongPhase
  else
    match runner.claimsRoot with
    | none => .error .notFrozen
    | some root =>
        let outputs := collectSignalOutputs signalVdfs
        let art := Epoch.openBeacon hemera runner.epoch runner.prevBeacon root outputs runner.outerT
        if !verifyBeacon hemera art then .error .beaconInvalid
        else .ok { runner with beacon := some art, phase := .beaconReady }

def openQuietBeacon (hemera : Hemera) (runner : EpochRunner zheng) :
    Except EpochError (EpochRunner zheng) :=
  runner.openBeacon hemera []

end Window

section Settle

variable (crates : Crates)

def certError : CertError → EpochError
  | .replayFailed => .noTickets
  | .proof reason => .proof reason

def sealTickets (base : List Link) (contribs : List Contribution) (ctx : crates.tru.Context)
    (params : crates.tru.FocusingParams) (beacon cluster : Particle)
    (tickets : List SettlementTicket) : Except EpochError (Option (FoldSeal crates.zheng)) :=
  if tickets.isEmpty then .ok none
  else
    ((proveReplayedBatch crates.hemera crates.tru base contribs ctx params beacon crates.zheng
      cluster tickets).mapError certError).map some

def receiptOf (runner : EpochRunner crates.zheng) (art : BeaconArtifact) (directedTotal : Fx)
    (ticketSeal : Option (FoldSeal crates.zheng)) (root : ClusterAcc)
    (foldSeal : FoldSeal crates.zheng) (shares : List SettledShare) :
    SettleReceipt crates.zheng where
  epoch := runner.epoch
  beacon := art.beacon
  claimsRoot := art.claimsRoot
  receiptHash := receiptHash crates.hemera runner.epoch art.beacon shares
  directedTotal := directedTotal
  budget := runner.budget
  shares := shares
  beaconArtifact := some art
  ticketSeal := ticketSeal
  foldSeal := some foldSeal
  sampleCount := root.k

/-- The part of `settle_with_peers` after the grinding. -/
def settleLeaves (runner : EpochRunner crates.zheng) (base : List Link) (ctx : crates.tru.Context)
    (params : crates.tru.FocusingParams) (policy : TicketPolicy) (art : BeaconArtifact)
    (contribs : List Contribution) (directedTotal : Fx) (tickets : List SettlementTicket)
    (leaves : List ClusterAcc) : Except EpochError (SettleReceipt crates.zheng) := do
  let ticketSeal ← sealTickets crates base contribs ctx params art.beacon art.claimsRoot tickets
  let (root, foldSeal) ←
    (proveFoldTree crates.hemera crates.zheng art.beacon art.claimsRoot leaves).mapError .proof
  if !verifyFoldSeal crates.zheng foldSeal then .error (.proof .verifyFailed)
  else if !root.meetsPrecision crates.tru policy.precisionEpsilon policy.precisionDelta then
    .error (.insufficientPrecision root.k
      (ClusterAcc.kMin crates.tru policy.precisionEpsilon policy.precisionDelta))
  else do
    let rawShares := root.meanShares crates.tru (contribs.map Contribution.neuron)
    let shares ←
      (allocateBudget crates.tru crates.tok rawShares runner.budget directedTotal).mapError .reward
    return receiptOf crates runner art directedTotal ticketSeal root foldSeal shares

def settleWithPeers (runner : EpochRunner crates.zheng) (base : List Link)
    (ctx : crates.tru.Context) (params : crates.tru.FocusingParams) (policy : TicketPolicy)
    (peerAccs : List ClusterAcc) : Except EpochError (EpochRunner crates.zheng) :=
  if runner.phase ≠ .beaconReady then .error .wrongPhase
  else if runner.budget = 0 then .error .budgetZero
  else
    match runner.beacon with
    | none => .error .noBeacon
    | some art =>
        if !verifyBeacon crates.hemera art then .error .beaconInvalid
        else
          let contribs := contributionsWithRho crates.tru runner.claims
          let total := directedTotal crates.tru base runner.claims ctx params
          let tickets := grindSettlement crates.hemera crates.tru base contribs ctx params
            art.beacon art.claimsRoot policy.miner policy.startNonce policy.maxAttempts policy.want
            policy.settleTarget
          let leaves := selfFold crates.hemera contribs.length tickets :: peerAccs
          if leaves.all fun acc => acc.k == 0 then .error .noTickets
          else do
            let receipt ← settleLeaves crates runner base ctx params policy art contribs total
              tickets leaves
            return { runner with receipt := some receipt, phase := .settled }

def settle (runner : EpochRunner crates.zheng) (base : List Link) (ctx : crates.tru.Context)
    (params : crates.tru.FocusingParams) (policy : TicketPolicy) :
    Except EpochError (EpochRunner crates.zheng) :=
  runner.settleWithPeers crates base ctx params policy []

end Settle

def nextEpoch {zheng : Zheng} (runner : EpochRunner zheng) :
    Except EpochError (EpochRunner zheng) :=
  match runner.beacon with
  | none => .error .noBeacon
  | some art =>
      if runner.phase ≠ .settled then .error .wrongPhase
      else .ok (new zheng (satAdd runner.epoch 1) art.beacon)

section Spec

variable {crates : Crates} {runner after : EpochRunner crates.zheng}

theorem propose_all (runner : EpochRunner crates.zheng) (accepting : runner.phase = .propose)
    (claims : List RewardClaim) :
    claims.foldlM propose runner = .ok { runner with claims := runner.claims ++ claims } := by
  induction claims generalizing runner with
  | nil => rw [List.append_nil]; rfl
  | cons claim rest ih =>
      have first : runner.propose claim =
          .ok { runner with claims := runner.claims ++ [claim] } :=
        if_neg (not_not.mpr accepting)
      rw [List.foldlM_cons, first]
      have later := ih { runner with claims := runner.claims ++ [claim] } accepting
      rw [List.append_assoc] at later
      exact later

theorem freeze_eq (hemera : Hemera) (runner : EpochRunner crates.zheng)
    (accepting : runner.phase = .propose) :
    runner.freeze hemera =
      if runner.claims.isEmpty then .error .emptyClaims
      else .ok { runner with
        claimsRoot := some (Epoch.claimsRoot hemera (runner.claims.map RewardClaim.id))
        phase := .frozen } :=
  if_neg (not_not.mpr accepting)

theorem freeze_eq_ok_iff {hemera : Hemera} :
    runner.freeze hemera = .ok after ↔
      runner.phase = .propose ∧ runner.claims ≠ [] ∧ after = { runner with
        claimsRoot := some (Epoch.claimsRoot hemera (runner.claims.map RewardClaim.id))
        phase := .frozen } := by
  rw [freeze]
  split_ifs with closed unclaimed
  · simp [closed]
  · simp [List.isEmpty_iff.mp unclaimed]
  · have claimed : runner.claims ≠ [] := fun none => unclaimed (List.isEmpty_iff.mpr none)
    simp only [not_not.mp closed, claimed, Except.ok.injEq, ne_eq, not_false_eq_true, true_and]
    exact eq_comm

theorem freeze_claims {hemera : Hemera} (frozen : runner.freeze hemera = .ok after) :
    after.claims = runner.claims := by
  obtain ⟨_, _, rfl⟩ := freeze_eq_ok_iff.mp frozen
  rfl

/-- A beacon that opens is that of the epoch and of the beacon before it, and it
verifies. -/
theorem openBeacon_eq_ok {hemera : Hemera} {signalVdfs : List VdfProof}
    (opened : runner.openBeacon hemera signalVdfs = .ok after) :
    runner.phase = .frozen ∧ ∃ root art, runner.claimsRoot = some root ∧
      art = Epoch.openBeacon hemera runner.epoch runner.prevBeacon root
        (collectSignalOutputs signalVdfs) runner.outerT ∧
      verifyBeacon hemera art = true ∧
      after = { runner with beacon := some art, phase := .beaconReady } := by
  rw [openBeacon] at opened
  split_ifs at opened with early
  cases root : runner.claimsRoot with
  | none => simp [root] at opened
  | some frozen =>
      simp only [root] at opened
      split_ifs at opened with invalid
      cases opened
      exact ⟨not_not.mp early, frozen, _, rfl, rfl, by simpa using invalid, rfl⟩

theorem openBeacon_claims {hemera : Hemera} {signalVdfs : List VdfProof}
    (opened : runner.openBeacon hemera signalVdfs = .ok after) : after.claims = runner.claims := by
  obtain ⟨_, _, _, _, _, _, rfl⟩ := openBeacon_eq_ok opened
  rfl

variable {base : List Link} {ctx : crates.tru.Context} {params : crates.tru.FocusingParams}
  {policy : TicketPolicy}

/-- Without tickets there is no seal; the seal over tickets is that of their batch. -/
theorem sealTickets_eq_ok {contribs : List Contribution} {beacon cluster : Particle}
    {tickets : List SettlementTicket} {ticketSeal : Option (FoldSeal crates.zheng)}
    (sealed : sealTickets crates base contribs ctx params beacon cluster tickets =
      .ok ticketSeal) :
    tickets = [] ∧ ticketSeal = none ∨ ∃ made, ticketSeal = some made ∧
      proveSettlementBatch crates.hemera crates.zheng beacon cluster tickets = .ok made := by
  rw [sealTickets] at sealed
  split_ifs at sealed with idle
  · cases sealed
    exact .inl ⟨List.isEmpty_iff.mp idle, rfl⟩
  · cases batch : proveReplayedBatch crates.hemera crates.tru base contribs ctx params beacon
        crates.zheng cluster tickets with
    | error reason => simp [batch, Except.mapError, Except.map] at sealed
    | ok made =>
        simp only [batch, Except.mapError, Except.map, Except.ok.injEq] at sealed
        subst sealed
        rw [proveReplayedBatch] at batch
        split_ifs at batch
        exact .inr ⟨made, rfl, mapError_eq_ok_iff.mp batch⟩

theorem settleLeaves_eq_ok_iff {art : BeaconArtifact} {contribs : List Contribution}
    {directedTotal : Fx} {tickets : List SettlementTicket} {leaves : List ClusterAcc}
    {receipt : SettleReceipt crates.zheng} :
    settleLeaves crates runner base ctx params policy art contribs directedTotal tickets leaves =
        .ok receipt ↔
      ∃ ticketSeal root foldSeal shares,
        sealTickets crates base contribs ctx params art.beacon art.claimsRoot tickets =
          .ok ticketSeal ∧
        proveFoldTree crates.hemera crates.zheng art.beacon art.claimsRoot leaves =
          .ok (root, foldSeal) ∧
        verifyFoldSeal crates.zheng foldSeal = true ∧
        root.meetsPrecision crates.tru policy.precisionEpsilon policy.precisionDelta = true ∧
        allocateBudget crates.tru crates.tok
          (root.meanShares crates.tru (contribs.map Contribution.neuron)) runner.budget
          directedTotal = .ok shares ∧
        receipt = receiptOf crates runner art directedTotal ticketSeal root foldSeal shares := by
  simp only [settleLeaves, bind_eq_ok_iff, mapError_eq_ok_iff, Prod.exists]
  constructor
  · intro settles
    obtain ⟨ticketSeal, sealed, root, foldSeal, proven, settled⟩ := settles
    split_ifs at settled with unverified imprecise
    obtain ⟨shares, allocated, result⟩ := bind_eq_ok_iff.mp settled
    cases result
    exact ⟨ticketSeal, root, foldSeal, shares, sealed, proven, by simpa using unverified,
      by simpa using imprecise, mapError_eq_ok_iff.mp allocated, rfl⟩
  · intro settles
    obtain ⟨ticketSeal, root, foldSeal, shares, sealed, proven, verified, precise, allocated, rfl⟩ :=
      settles
    refine ⟨ticketSeal, sealed, root, foldSeal, proven, ?_⟩
    rw [verified, precise]
    exact bind_eq_ok_iff.mpr ⟨shares, mapError_eq_ok_iff.mpr allocated, rfl⟩

/-- What the settling node grinds itself. -/
def ownTickets (crates : Crates) (runner : EpochRunner crates.zheng) (base : List Link)
    (ctx : crates.tru.Context) (params : crates.tru.FocusingParams) (policy : TicketPolicy)
    (art : BeaconArtifact) : List SettlementTicket :=
  grindSettlement crates.hemera crates.tru base (contributionsWithRho crates.tru runner.claims) ctx
    params art.beacon art.claimsRoot policy.miner policy.startNonce policy.maxAttempts policy.want
    policy.settleTarget

/-- The leaves of the fold tree: the node's own accumulator, then those of its peers. -/
def leavesWith (crates : Crates) (runner : EpochRunner crates.zheng) (base : List Link)
    (ctx : crates.tru.Context) (params : crates.tru.FocusingParams) (policy : TicketPolicy)
    (art : BeaconArtifact) (peerAccs : List ClusterAcc) : List ClusterAcc :=
  selfFold crates.hemera (contributionsWithRho crates.tru runner.claims).length
    (ownTickets crates runner base ctx params policy art) :: peerAccs

/-- What a successful settlement has checked, and the runner after it. -/
theorem settleWithPeers_eq_ok_iff {peerAccs : List ClusterAcc} :
    runner.settleWithPeers crates base ctx params policy peerAccs = .ok after ↔
      runner.phase = .beaconReady ∧ runner.budget ≠ 0 ∧ ∃ art receipt, runner.beacon = some art ∧
        verifyBeacon crates.hemera art = true ∧
        (∃ leaf ∈ leavesWith crates runner base ctx params policy art peerAccs, leaf.k ≠ 0) ∧
        settleLeaves crates runner base ctx params policy art
          (contributionsWithRho crates.tru runner.claims)
          (directedTotal crates.tru base runner.claims ctx params)
          (ownTickets crates runner base ctx params policy art)
          (leavesWith crates runner base ctx params policy art peerAccs) = .ok receipt ∧
        after = { runner with receipt := some receipt, phase := .settled } := by
  have sampled (leaves : List ClusterAcc) :
      ¬ leaves.all (fun acc => acc.k == 0) = true ↔ ∃ leaf ∈ leaves, leaf.k ≠ 0 := by
    simp
  constructor
  · intro settled
    simp only [settleWithPeers] at settled
    split_ifs at settled with phase budget
    cases opened : runner.beacon with
    | none => simp [opened] at settled
    | some art =>
        simp only [opened] at settled
        split_ifs at settled with invalid idle
        obtain ⟨receipt, sealed, result⟩ := bind_eq_ok_iff.mp settled
        cases result
        exact ⟨not_not.mp phase, budget, art, receipt, rfl, by simpa using invalid,
          (sampled _).mp idle, sealed, rfl⟩
  · intro settles
    obtain ⟨phase, funded, art, receipt, opened, verified, inhabited, sealed, rfl⟩ := settles
    rw [settleWithPeers, if_neg (not_not.mpr phase), if_neg funded, opened]
    simp only [verified]
    rw [if_neg (by decide)]
    refine (if_neg ((sampled _).mpr inhabited)).trans ?_
    exact bind_eq_ok_iff.mpr ⟨receipt, sealed, rfl⟩

theorem settleWithPeers_claims {peerAccs : List ClusterAcc}
    (settled : runner.settleWithPeers crates base ctx params policy peerAccs = .ok after) :
    after.claims = runner.claims := by
  obtain ⟨_, _, _, _, _, _, _, _, rfl⟩ := settleWithPeers_eq_ok_iff.mp settled
  rfl

/-- A beacon, a budget and tickets are enough to settle, once the seals and the
allocation succeed. -/
theorem settle_eq_ok {art : BeaconArtifact} {receipt : SettleReceipt crates.zheng}
    {tickets : List SettlementTicket} (phase : runner.phase = .beaconReady)
    (funded : runner.budget ≠ 0) (opened : runner.beacon = some art)
    (verified : verifyBeacon crates.hemera art = true)
    (ground : grindSettlement crates.hemera crates.tru base
      (contributionsWithRho crates.tru runner.claims) ctx params art.beacon art.claimsRoot
      policy.miner policy.startNonce policy.maxAttempts policy.want policy.settleTarget = tickets)
    (sampled : (selfFold crates.hemera (contributionsWithRho crates.tru runner.claims).length
      tickets).k ≠ 0)
    (sealed : settleLeaves crates runner base ctx params policy art
      (contributionsWithRho crates.tru runner.claims)
      (directedTotal crates.tru base runner.claims ctx params) tickets
      [selfFold crates.hemera (contributionsWithRho crates.tru runner.claims).length tickets] =
        .ok receipt) :
    runner.settle crates base ctx params policy =
      .ok { runner with receipt := some receipt, phase := .settled } := by
  subst ground
  exact settleWithPeers_eq_ok_iff.mpr ⟨phase, funded, art, receipt, opened, verified,
    ⟨_, List.mem_cons_self, sampled⟩, sealed, rfl⟩

theorem settleWithPeers_sound {peerAccs : List ClusterAcc}
    (settled : runner.settleWithPeers crates base ctx params policy peerAccs = .ok after) :
    ∃ receipt, after.receipt = some receipt ∧
      (amounts receipt.shares).sum = receipt.budget.toNat ∧
      receipt.receiptHash =
        receiptHash crates.hemera receipt.epoch receipt.beacon receipt.shares := by
  obtain ⟨_, _, art, receipt, _, _, _, sealed, rfl⟩ := settleWithPeers_eq_ok_iff.mp settled
  obtain ⟨_, _, _, shares, _, _, _, _, allocated, rfl⟩ := settleLeaves_eq_ok_iff.mp sealed
  exact ⟨_, rfl, allocateBudget_sum allocated, rfl⟩

end Spec

end EpochRunner

end Foculus.Epoch

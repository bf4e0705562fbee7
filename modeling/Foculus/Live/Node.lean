import Foculus.Epoch.Certificate
import Std.Data.ExtTreeMap

namespace Foculus.Live

open Data Settlement Epoch

/-! # The live node (`src/live.rs`)

A call that can fail returns the node after the call beside its result: the
source does not undo what it did before an error. -/

inductive NodeMode where
  | full
  | cell
  | light
deriving DecidableEq, Repr

structure LiveSignal where
  id : Particle
  neuron : Particle
  links : List Link
  valence : Int8
  vdf : VdfProof

/-- An entry of `pending_rewards`; the reason is the receipt hash. -/
structure PendingReward where
  amount : UInt64
  reason : Particle
  mintHeight : UInt64
deriving DecidableEq

inductive LiveError where
  | wrongMode
  | tipUntrusted
  | tipAdvanceFailed
  | epochError
  | emptyClaims
  | beaconNotReady
  | settleFailed
  | certInvalid
deriving DecidableEq, Repr

structure LiveNode (zheng : Zheng) where
  mode : NodeMode
  neuron : Particle
  tip : Tip zheng
  tipProver : Option (TipProver zheng)
  signals : Std.ExtTreeMap Particle LiveSignal
  rewardBase : List Link
  epoch : EpochRunner zheng
  lastCert : Option (EpochCertificate zheng)
  peerAccs : List ClusterAcc
  budget : UInt64
  settleDepth : UInt64
  pendingRewards : List PendingReward
  creditedReceipts : Std.ExtTreeSet Particle
  maturedReward : UInt64

namespace LiveNode

def genesisTip (hemera : Hemera) (zheng : Zheng) : Tip zheng × TipProver zheng :=
  let prover := ((TipProver.new zheng).foldHeight hemera 0 Particle.zero).1
  match prover.sealTip with
  | .ok tip => (tip, prover)
  | .error _ => (Tip.fromLocal ⟨Particle.zero, none, 0⟩, prover)

def new (hemera : Hemera) (zheng : Zheng) (mode : NodeMode) (neuron : Particle) :
    LiveNode zheng where
  mode := mode
  neuron := neuron
  tip := if mode = .light then Tip.untrusted zheng else (genesisTip hemera zheng).1
  tipProver := if mode = .light then none else some (genesisTip hemera zheng).2
  signals := ∅
  rewardBase := []
  epoch := EpochRunner.genesis zheng 1
  lastCert := none
  peerAccs := []
  budget := 1000
  settleDepth := 2
  pendingRewards := []
  creditedReceipts := ∅
  maturedReward := 0

section Rewards

variable {zheng : Zheng}

def creditReceipt (node : LiveNode zheng) (receipt : SettleReceipt zheng) (mintHeight : UInt64) :
    LiveNode zheng :=
  if node.creditedReceipts.contains receipt.receiptHash then node
  else
    let node := { node with creditedReceipts := node.creditedReceipts.insert receipt.receiptHash }
    let amt := shareOf receipt node.neuron
    if amt > 0 then
      { node with
        pendingRewards := node.pendingRewards ++ [⟨amt, receipt.receiptHash, mintHeight⟩] }
    else node

def due (node : LiveNode zheng) (pending : PendingReward) : Bool :=
  node.tip.height ≥ satAdd pending.mintHeight node.settleDepth

def matureRewards (node : LiveNode zheng) : LiveNode zheng :=
  { node with
    maturedReward := (node.pendingRewards.filter node.due).foldl
      (fun matured pending => satAdd matured pending.amount) node.maturedReward
    pendingRewards := node.pendingRewards.filter fun pending => !node.due pending }

end Rewards

section Tips

variable {zheng : Zheng}

def bumpTip (hemera : Hemera) (node : LiveNode zheng) : LiveNode zheng × Except LiveError Unit :=
  let h := satAdd node.tip.height 1
  let root := Particle.padded (u64Bytes h ++ [UInt8.ofNat node.signals.size])
  match node.tipProver with
  | some prover =>
      match prover.foldHeight hemera h root with
      | (prover, .error _) => ({ node with tipProver := some prover }, .error .tipAdvanceFailed)
      | (prover, .ok ()) =>
          let node := { node with tipProver := some prover }
          match prover.sealTip with
          | .error _ => (node, .error .tipAdvanceFailed)
          | .ok tip => (matureRewards { node with tip }, .ok ())
  | none => (matureRewards { node with tip := Tip.fromLocal ⟨root, none, h⟩ }, .ok ())

def lightJoin (node : LiveNode zheng) (tip : Tip zheng) : LiveNode zheng × Except LiveError Unit :=
  if node.mode ≠ .light then (node, .error .wrongMode)
  else if !tip.grade4 then (node, .error .tipUntrusted)
  else ({ node with tip }, .ok ())

def lightAdvance (hemera : Hemera) (node : LiveNode zheng) (height : UInt64) (root : Particle) :
    LiveNode zheng × Except LiveError Unit :=
  if node.mode ≠ .light then (node, .error .wrongMode)
  else
    let (tip, advanced) := node.tip.advanceFold hemera height root
    ({ node with tip }, advanced.mapError fun _ => .tipAdvanceFailed)

end Tips

section Signals

variable (crates : Crates)

/-- While the propose window is open, a signal is also a claim. -/
def proposeSignal (epoch : EpochRunner crates.zheng) (sig : LiveSignal) :
    Except EpochError (EpochRunner crates.zheng) :=
  if epoch.phase = .propose then
    epoch.propose (claimFromLinks crates.tru sig.id sig.neuron sig.links sig.valence)
  else .ok epoch

def ingestSignal (node : LiveNode crates.zheng) (sig : LiveSignal) :
    LiveNode crates.zheng × Except LiveError Unit :=
  if node.mode = .light then (node, .error .wrongMode)
  else if node.signals.contains sig.id then (node, .ok ())
  else
    match proposeSignal crates node.epoch sig with
    | .error _ => (node, .error .epochError)
    | .ok epoch =>
        bumpTip crates.hemera { node with epoch, signals := node.signals.insert sig.id sig }

def linkId {zheng : Zheng} (node : LiveNode zheng) : Particle :=
  Particle.padded (leBytes 8 (node.signals.size + 1) ++ [node.neuron.get 0])

def link (node : LiveNode crates.zheng) («from» «to» : Particle) (amount : Nat) (valence : Int8) :
    LiveNode crates.zheng × Except LiveError Particle :=
  let id := node.linkId
  let vdf := Vdf.evaluate (Vdf.challengeFromHash id) 16
  let link := { crates.tru.stake «from» «to» amount with neuron := node.neuron, valence }
  let (node, ingested) := node.ingestSignal crates
    { id, neuron := node.neuron, links := [link], valence, vdf }
  (node, ingested.map fun _ => id)

def absorbPeerAcc {zheng : Zheng} (node : LiveNode zheng) (acc : ClusterAcc) : LiveNode zheng :=
  if node.mode = .light then node else { node with peerAccs := node.peerAccs ++ [acc] }

end Signals

section Epochs

variable (crates : Crates)

def freezeProposed (node : LiveNode crates.zheng) : Except LiveError (LiveNode crates.zheng) :=
  if node.epoch.phase = .propose then
    match node.epoch.freeze crates.hemera with
    | .error _ => .error .epochError
    | .ok epoch => .ok { node with epoch }
  else .ok node

/-- Open the beacon over the VDFs of all signals if the claims are frozen. -/
def openFrozen (node : LiveNode crates.zheng) : Except LiveError (LiveNode crates.zheng) :=
  if node.epoch.phase = .frozen then
    match node.epoch.openBeacon crates.hemera (node.signals.toList.map fun entry => entry.2.vdf) with
    | .error _ => .error .epochError
    | .ok epoch => .ok { node with epoch }
  else .ok node

def freezeAndBeacon (node : LiveNode crates.zheng) :
    LiveNode crates.zheng × Except LiveError Particle :=
  if node.mode = .light then (node, .error .wrongMode)
  else
    match node.freezeProposed crates with
    | .error reason => (node, .error reason)
    | .ok frozen =>
        match frozen.openFrozen crates with
        | .error reason => (frozen, .error reason)
        | .ok ready => (ready, .ok (ready.epoch.claimsRoot.getD Particle.zero))

def ownPolicy {zheng : Zheng} (node : LiveNode zheng) : TicketPolicy :=
  { TicketPolicy.default with
    want := 4, maxAttempts := 64, miner := node.neuron, settleTarget := easyTarget }

/-- The part of `close_and_settle_epoch` up to the receipt. -/
def settleOwn (node : LiveNode crates.zheng) :
    LiveNode crates.zheng × Except LiveError (SettleReceipt crates.zheng) :=
  if node.mode = .light then (node, .error .wrongMode)
  else
    let node := { node with
      epoch := { node.epoch with budget := node.budget, outerT := testOuterT } }
    if node.epoch.phase = .propose ∧ node.epoch.claims.isEmpty then (node, .error .emptyClaims)
    else
      match node.freezeProposed crates with
      | .error reason => (node, .error reason)
      | .ok frozen =>
          match frozen.openFrozen crates with
          | .error reason => (frozen, .error reason)
          | .ok ready =>
              -- without peers the source calls `settle`, which passes no accumulators
              match ready.epoch.settleWithPeers crates ready.rewardBase crates.tru.noContext
                  crates.tru.defaultParams ready.ownPolicy ready.peerAccs with
              | .error _ => (ready, .error .settleFailed)
              | .ok epoch =>
                  let settled := { ready with epoch }
                  match epoch.receipt with
                  -- a settled runner has a receipt
                  | none => (settled, .error .settleFailed)
                  | some receipt =>
                      if !verifyReceipt crates.hemera crates.zheng receipt then
                        (settled, .error .settleFailed)
                      else (settled, .ok receipt)

def certifyOwn (node : LiveNode crates.zheng) (receipt : SettleReceipt crates.zheng) :
    LiveNode crates.zheng × Except LiveError (EpochCertificate crates.zheng) :=
  match node.epoch.beacon with
  | none => (node, .error .epochError)
  | some art =>
      let cert := issueEpochCert crates.hemera node.epoch.epoch node.tip art receipt.claimsRoot
        (some receipt) receipt.ticketSeal none
      let inputs : SettleVerifyInputs crates.tru := {
        base := node.rewardBase
        claims := node.epoch.claims
        ctx := crates.tru.noContext
        params := crates.tru.defaultParams }
      if !verifyEpochCert crates cert (some inputs) then (node, .error .certInvalid)
      else
        let node := { node with lastCert := some cert, peerAccs := [] }
        let node := match node.epoch.nextEpoch with
          | .ok next => { node with epoch := { next with budget := node.budget } }
          | .error _ => node
        (node.matureRewards, .ok cert)

def closeAndSettleEpoch (node : LiveNode crates.zheng) :
    LiveNode crates.zheng × Except LiveError (EpochCertificate crates.zheng) :=
  match node.settleOwn crates with
  | (node, .error reason) => (node, .error reason)
  | (node, .ok receipt) =>
      certifyOwn crates (node.creditReceipt receipt node.tip.height) receipt

def acceptInputs (node : LiveNode crates.zheng) (claims : Option (List RewardClaim)) :
    Option (SettleVerifyInputs crates.tru) :=
  claims.map fun claims => {
    base := node.rewardBase
    claims
    ctx := crates.tru.noContext
    params := crates.tru.defaultParams }

def importTip {zheng : Zheng} (node : LiveNode zheng) (cert : EpochCertificate zheng) :
    LiveNode zheng :=
  if node.mode = .light ∧ (cert.tipTrust = .foldDecided ∨ cert.tipHeight ≥ node.tip.height) then
    { node with tip := Tip.fromLocal ⟨cert.tipRoot, none, cert.tipHeight⟩ }
  else node

def acceptEpochCert (node : LiveNode crates.zheng) (cert : EpochCertificate crates.zheng)
    (claims : Option (List RewardClaim)) : LiveNode crates.zheng × Except LiveError Unit :=
  if !verifyEpochCert crates cert (node.acceptInputs crates claims) then (node, .error .certInvalid)
  else
    let node := node.importTip cert
    let node := match cert.settle with
      | some receipt => node.creditReceipt receipt cert.tipHeight
      | none => node
    (matureRewards { node with lastCert := some cert }, .ok ())

def mineSelfAcc (node : LiveNode crates.zheng) : Except LiveError ClusterAcc :=
  if node.mode = .light then .error .wrongMode
  else if node.epoch.phase ≠ .beaconReady then .error .beaconNotReady
  else
    match node.epoch.beacon with
    | none => .error .beaconNotReady
    | some art =>
        if node.epoch.claims.isEmpty then .error .emptyClaims
        else
          let contribs := contributionsWithRho crates.tru node.epoch.claims
          let tickets := grindSettlement crates.hemera crates.tru node.rewardBase contribs
            crates.tru.noContext crates.tru.defaultParams art.beacon art.claimsRoot node.neuron 0 64
            3 easyTarget
          if tickets.isEmpty then .error .settleFailed
          else .ok (selfFold crates.hemera contribs.length tickets)

end Epochs

end LiveNode

end Foculus.Live

import Foculus.Epoch.Runner
import Foculus.Live.Tip
import Foculus.Settlement.SettleEpoch

namespace Foculus.Epoch

open Data Settlement Live

/-! # Epoch certificates (`src/epoch_cert.rs`) -/

structure EpochCertificate (zheng : Zheng) where
  epoch : UInt64
  tipHeight : UInt64
  tipRoot : Particle
  tipTrust : TipTrust
  claimsRoot : Particle
  beacon : BeaconArtifact
  phiStarHash : Option Particle
  settle : Option (SettleReceipt zheng)
  ticketBatchSeal : Option (FoldSeal zheng)
  certHash : Particle

structure SettleVerifyInputs (tru : Tru) where
  base : List Link
  claims : List RewardClaim
  ctx : tru.Context
  params : tru.FocusingParams

section Certify

variable {zheng : Zheng}

def certHash (hemera : Hemera) (cert : EpochCertificate zheng) : Particle :=
  hemera.hash (strBytes "foculus-epoch-cert-v2" ++ u64Bytes cert.epoch ++ u64Bytes cert.tipHeight ++
    cert.tipRoot.toList ++ [cert.tipTrust.byte] ++ cert.claimsRoot.toList ++
    cert.beacon.beacon.toList ++
    (match cert.settle with
      | some receipt => receipt.receiptHash.toList
      | none => []) ++
    (match cert.phiStarHash with
      | some hash => 1 :: hash.toList
      | none => [0]) ++
    match cert.ticketBatchSeal with
      | some sealed => u64Bytes sealed.steps ++ u64Bytes (zheng.stepCount sealed.acc)
      | none => [])

/-- Of a φ* proof only the hash of φ* is kept. -/
def issueEpochCert (hemera : Hemera) (epoch : UInt64) (tip : Tip zheng) (beacon : BeaconArtifact)
    (claimsRoot : Particle) (settle : Option (SettleReceipt zheng))
    (ticketBatchSeal : Option (FoldSeal zheng)) (phiStarHash : Option Particle) :
    EpochCertificate zheng :=
  let cert : EpochCertificate zheng := {
    epoch
    tipHeight := tip.height
    tipRoot := tip.root
    tipTrust := tip.trust
    claimsRoot
    beacon
    phiStarHash
    settle
    ticketBatchSeal
    certHash := Particle.zero }
  { cert with certHash := certHash hemera cert }

end Certify

section Verify

variable (crates : Crates)

def directedTotalMatches (inputs : SettleVerifyInputs crates.tru)
    (receipt : SettleReceipt crates.zheng) : Bool :=
  !(contributionsWithRho crates.tru inputs.claims).isEmpty &&
    (directedTotal crates.tru inputs.base inputs.claims inputs.ctx inputs.params).raw.asU64 ==
      receipt.directedTotal.raw.asU64

def verifySettle (cert : EpochCertificate crates.zheng)
    (settleInputs : Option (SettleVerifyInputs crates.tru))
    (receipt : SettleReceipt crates.zheng) : Bool :=
  verifyReceipt crates.hemera crates.zheng receipt &&
  (receipt.epoch == cert.epoch && receipt.beacon == cert.beacon.beacon) &&
  receipt.claimsRoot == cert.claimsRoot &&
  checkOption (verifyFoldSeal crates.zheng) cert.ticketBatchSeal &&
  checkOption (directedTotalMatches crates · receipt) settleInputs

def verifyEpochCert (cert : EpochCertificate crates.zheng)
    (settleInputs : Option (SettleVerifyInputs crates.tru)) : Bool :=
  cert.certHash == certHash crates.hemera cert &&
  (cert.tipTrust == .localApplied || cert.tipTrust == .foldDecided) &&
  verifyBeacon crates.hemera cert.beacon &&
  (cert.beacon.claimsRoot == cert.claimsRoot && cert.beacon.epoch == cert.epoch) &&
  checkOption (verifySettle crates cert settleInputs) cert.settle

end Verify

/-! What acceptance says about a receipt.

The receipt hash covers the epoch, the beacon and what each neuron is paid, and
the certificate hash covers the receipt hash; the budget is covered by neither.
An accepted receipt pays what the receipt of the same hash pays that the
settlement produced, and every produced receipt pays its budget. -/

section Acceptance

variable {crates : Crates}

/-- The receipts that the settlement code returns. -/
inductive Produced (crates : Crates) : SettleReceipt crates.zheng → Prop where
  | settleEpoch {epoch : UInt64} {prevBeacon : Particle} {base : List Link}
      {claims : List RewardClaim} {ctx : crates.tru.Context} {params : crates.tru.FocusingParams}
      {samples budget : UInt64} {receipt : SettleReceipt crates.zheng} :
      settleEpoch crates epoch prevBeacon base claims ctx params samples budget = .ok receipt →
      Produced crates receipt
  | settleWithPeerAccs {epoch : UInt64} {prevBeacon : Particle} {base : List Link}
      {claims : List RewardClaim} {ctx : crates.tru.Context} {params : crates.tru.FocusingParams}
      {budget : UInt64} {policy : TicketPolicy} {peerAccs : List ClusterAcc}
      {receipt : SettleReceipt crates.zheng} :
      settleWithPeerAccs crates epoch prevBeacon base claims ctx params budget policy peerAccs =
        .ok receipt →
      Produced crates receipt
  | runner {runner after : EpochRunner crates.zheng} {base : List Link} {ctx : crates.tru.Context}
      {params : crates.tru.FocusingParams} {policy : TicketPolicy} {peerAccs : List ClusterAcc}
      {receipt : SettleReceipt crates.zheng} :
      runner.settleWithPeers crates base ctx params policy peerAccs = .ok after →
      after.receipt = some receipt →
      Produced crates receipt

theorem Produced.sound {receipt : SettleReceipt crates.zheng} (produced : Produced crates receipt) :
    (amounts receipt.shares).sum = receipt.budget.toNat ∧
      receipt.receiptHash =
        receiptHash crates.hemera receipt.epoch receipt.beacon receipt.shares := by
  cases produced with
  | settleEpoch settled => exact settleEpoch_sound settled
  | settleWithPeerAccs settled => exact settleWithPeerAccs_sound settled
  | runner settled issued =>
      obtain ⟨_, returned, sound⟩ := EpochRunner.settleWithPeers_sound settled
      cases issued.symm.trans returned
      exact sound

theorem verifyEpochCert_settle {cert : EpochCertificate crates.zheng}
    {inputs : Option (SettleVerifyInputs crates.tru)} {receipt : SettleReceipt crates.zheng}
    (settles : cert.settle = some receipt) (accepted : verifyEpochCert crates cert inputs = true) :
    verifySettle crates cert inputs receipt = true := by
  rw [verifyEpochCert, settles, Bool.and_eq_true] at accepted
  exact accepted.2

theorem verifyEpochCert_budget {cert : EpochCertificate crates.zheng}
    {inputs : Option (SettleVerifyInputs crates.tru)} {receipt : SettleReceipt crates.zheng}
    (settles : cert.settle = some receipt) (budget : UInt64) :
    verifyEpochCert crates { cert with settle := some { receipt with budget } } inputs =
      verifyEpochCert crates cert inputs := by
  simp only [verifyEpochCert, certHash, settles]
  rfl

/-- An accepted receipt is that of the certificate's epoch, beacon and claims
and pays what its hash covers: the budget of the settlement that produced a
receipt of this hash. -/
theorem accepted_receipt_pays_produced (crates : Crates) (cert : EpochCertificate crates.zheng)
    (receipt : SettleReceipt crates.zheng) (inputs : Option (SettleVerifyInputs crates.tru))
    (settles : cert.settle = some receipt) (accepted : verifyEpochCert crates cert inputs = true) :
    (receipt.epoch = cert.epoch ∧ receipt.beacon = cert.beacon.beacon ∧
      receipt.claimsRoot = cert.claimsRoot) ∧
    receipt.receiptHash = receiptHash crates.hemera receipt.epoch receipt.beacon receipt.shares ∧
    (∀ budget, verifyEpochCert crates { cert with settle := some { receipt with budget } } inputs =
      true) ∧
    ∀ produced, Produced crates produced →
      (amounts produced.shares).sum = produced.budget.toNat ∧
      (produced.receiptHash = receipt.receiptHash →
        crates.hemera.CollisionFree
          {receiptPreimage produced.epoch produced.beacon produced.shares,
            receiptPreimage receipt.epoch receipt.beacon receipt.shares} →
        (amounts receipt.shares).sum = produced.budget.toNat) := by
  have checked := verifyEpochCert_settle settles accepted
  simp only [verifySettle, verifyReceipt, Bool.and_eq_true, beq_iff_eq] at checked
  obtain ⟨⟨⟨⟨⟨⟨⟨hash, _⟩, _⟩, _⟩, epoch, beacon⟩, root⟩, _⟩, _⟩ := checked
  refine ⟨⟨epoch, beacon, root⟩, hash, ?_, ?_⟩
  · intro budget
    rw [verifyEpochCert_budget settles, accepted]
  · intro produced made
    obtain ⟨pays, producedHash⟩ := made.sound
    refine ⟨pays, fun same free => ?_⟩
    have preimages := free.pair ((producedHash.symm.trans same).trans hash)
    rw [← receiptPreimage_sum preimages, pays]

end Acceptance

def sampleCrates : Crates := ⟨Hemera.truncating, Tru.unit, Tok.unclipped, Step.counting⟩

def linkClaim (name : UInt8) : RewardClaim :=
  claimFromLinks Tru.unit (Particle.padded [name]) (Particle.padded [name])
    [Tru.unit.stake (Particle.padded [8]) (Particle.padded [9]) 100] 1

def linkArtifact (name : UInt8) : BeaconArtifact :=
  openBeacon Hemera.truncating 1 genesisPrev
    (claimsRoot Hemera.truncating [(linkClaim name).id]) [] testOuterT

/-- A receipt that pays `amount` to the neuron of the claim and states a budget. -/
def linkReceipt (name : UInt8) (amount budget : UInt64) : SettleReceipt Step.counting :=
  let shares : List SettledShare := [⟨Particle.padded [name], Fx.one, amount⟩]
  { epoch := 1
    beacon := (linkArtifact name).beacon
    claimsRoot := (linkArtifact name).claimsRoot
    receiptHash := receiptHash Hemera.truncating 1 (linkArtifact name).beacon shares
    directedTotal := Fx.one
    budget
    shares
    beaconArtifact := some (linkArtifact name)
    ticketSeal := none
    foldSeal := none
    sampleCount := 1 }

def linkCert (name : UInt8) (amount budget : UInt64) : EpochCertificate Step.counting :=
  issueEpochCert Hemera.truncating 1 (Tip.fromLocal ⟨Particle.zero, none, 0⟩) (linkArtifact name)
    (linkArtifact name).claimsRoot (some (linkReceipt name amount budget)) none none

def linkInputs (name : UInt8) : SettleVerifyInputs Tru.unit where
  base := []
  claims := [linkClaim name]
  ctx := ()
  params := ()

theorem accepted_receipt_pays_produced_link :
    verifyEpochCert sampleCrates (linkCert 1 1000 1000) (some (linkInputs 1)) = true ∧
    (linkReceipt 1 1000 1000).epoch = (linkCert 1 1000 1000).epoch ∧
    verifyEpochCert sampleCrates
      { linkCert 1 1000 1000 with settle := some { linkReceipt 1 1000 1000 with budget := 7 } }
      (some (linkInputs 1)) = true := by
  have accepted : verifyEpochCert sampleCrates (linkCert 1 1000 1000) (some (linkInputs 1)) =
      true := by decide +kernel
  have bound := accepted_receipt_pays_produced sampleCrates (linkCert 1 1000 1000)
    (linkReceipt 1 1000 1000) (some (linkInputs 1)) rfl accepted
  exact ⟨accepted, bound.1.1, bound.2.2.1 7⟩

/-- A certificate that pays a thousand out of a budget of one is accepted, with
and without the inputs. -/
theorem overpaying_cert_accepted :
    (linkCert 1 1000 1).settle = some (linkReceipt 1 1000 1) ∧
    verifyEpochCert sampleCrates (linkCert 1 1000 1) none = true ∧
    verifyEpochCert sampleCrates (linkCert 1 1000 1) (some (linkInputs 1)) = true ∧
    (amounts (linkReceipt 1 1000 1).shares).sum ≠ (linkReceipt 1 1000 1).budget.toNat := by
  refine ⟨rfl, ?_⟩
  decide +kernel

end Foculus.Epoch

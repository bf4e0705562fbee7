import Foculus.Epoch.Certificate
import Foculus.Settlement.FoldTree

namespace Foculus.Epoch

open Data Settlement

/-! # Verifying a live receipt (`verify_live_receipt` of `src/epoch.rs`)

Unlike `verify_receipt`, the live verifier wants the beacon artifact and both
seals to be there.  It checks each seal against the statement the seal carries,
and that statement against nothing. -/

def verifyLiveReceipt (hemera : Hemera) (zheng : Zheng) (receipt : SettleReceipt zheng) : Bool :=
  verifyReceipt hemera zheng receipt &&
  receipt.beaconArtifact.any (fun art => verifyBeacon hemera art && art.beacon == receipt.beacon) &&
  receipt.ticketSeal.any (verifyFoldSeal zheng) &&
  receipt.foldSeal.any (verifyFoldSeal zheng)

section Verifier

variable {hemera : Hemera} {zheng : Zheng}

/-- The checks that do not look at the seals. -/
def Genuine (hemera : Hemera) (receipt : SettleReceipt zheng) : Prop :=
  receipt.receiptHash = receiptHash hemera receipt.epoch receipt.beacon receipt.shares ∧
    ∃ art, receipt.beaconArtifact = some art ∧ verifyBeacon hemera art = true ∧
      art.beacon = receipt.beacon

theorem verifyLiveReceipt_iff {receipt : SettleReceipt zheng} :
    verifyLiveReceipt hemera zheng receipt = true ↔
      Genuine hemera receipt ∧
      (∃ sealed, receipt.ticketSeal = some sealed ∧ verifyFoldSeal zheng sealed = true) ∧
      ∃ sealed, receipt.foldSeal = some sealed ∧ verifyFoldSeal zheng sealed = true := by
  simp only [verifyLiveReceipt, verifyReceipt, Genuine, Bool.and_eq_true, beq_iff_eq,
    Option.any_eq_true]
  constructor
  · intro accepted
    obtain ⟨⟨⟨⟨⟨⟨hash, _⟩, _⟩, _⟩, beacon⟩, tickets⟩, folds⟩ := accepted
    exact ⟨⟨hash, beacon⟩, tickets, folds⟩
  · intro checks
    obtain ⟨⟨hash, art, opened, verified, beacon⟩, ⟨tickets, ticketSeal, ticketsVerified⟩,
      folds, foldSeal, foldsVerified⟩ := checks
    simp [hash, opened, verified, beacon, ticketSeal, ticketsVerified, foldSeal, foldsVerified,
      checkOption]

end Verifier

section Acceptance

variable {crates : Crates} {runner after : EpochRunner crates.zheng} {base : List Link}
  {ctx : crates.tru.Context} {params : crates.tru.FocusingParams} {policy : TicketPolicy}
  {art : BeaconArtifact}

open EpochRunner

/-- The node wants tickets, and one of the nonces it tries wins under the beacon. -/
def WinsOwnTicket (crates : Crates) (runner : EpochRunner crates.zheng) (base : List Link)
    (ctx : crates.tru.Context) (params : crates.tru.FocusingParams) (policy : TicketPolicy) : Prop :=
  policy.want ≠ 0 ∧ ∃ art, runner.beacon = some art ∧ ∃ i < policy.maxAttempts.toNat,
    (trySettlementTicket crates.hemera crates.tru base (contributionsWithRho crates.tru runner.claims)
      ctx params art.beacon art.claimsRoot policy.miner (satAdd policy.startNonce (lenU64 i))
      policy.settleTarget).isSome

theorem winsOwnTicket_iff (opened : runner.beacon = some art) :
    WinsOwnTicket crates runner base ctx params policy ↔
      ownTickets crates runner base ctx params policy art ≠ [] := by
  rw [ownTickets, grindSettlement_ne_nil_iff, WinsOwnTicket, opened]
  simp only [Option.some.injEq, exists_eq_left']

/-- The tickets a node has ground are sealed, and without tickets there is no seal. -/
theorem sealTickets_own (complete : Step.Complete crates.zheng)
    {ticketSeal : Option (FoldSeal crates.zheng)}
    (sealed : sealTickets crates base (contributionsWithRho crates.tru runner.claims) ctx params
      art.beacon art.claimsRoot (ownTickets crates runner base ctx params policy art) =
        .ok ticketSeal) :
    (∃ sealed, ticketSeal = some sealed ∧ verifyFoldSeal crates.zheng sealed = true) ↔
      ownTickets crates runner base ctx params policy art ≠ [] := by
  by_cases idle : ownTickets crates runner base ctx params policy art = []
  · rw [idle] at sealed ⊢
    cases sealed
    simp
  · obtain ⟨made, proven, verified⟩ := proveReplayedBatch_ok complete idle grindSettlement_sound
    rw [sealTickets, if_neg (by simpa using idle), proven] at sealed
    cases sealed
    exact iff_of_true ⟨made, rfl, verified⟩ idle

/-- The live verifier accepts what a settlement returns exactly when the node
that settled has won a ticket of its own. -/
theorem settled_receipt_accepted_iff (complete : Step.Complete crates.zheng)
    (peerAccs : List ClusterAcc)
    (settled : runner.settleWithPeers crates base ctx params policy peerAccs = .ok after) :
    ∃ receipt, after.receipt = some receipt ∧
      (verifyLiveReceipt crates.hemera crates.zheng receipt = true ↔
        WinsOwnTicket crates runner base ctx params policy) := by
  obtain ⟨_, _, art, receipt, opened, genuine, _, leaves, rfl⟩ :=
    settleWithPeers_eq_ok_iff.mp settled
  obtain ⟨ticketSeal, root, foldSeal, shares, sealed, _, foldVerified, _, _, rfl⟩ :=
    settleLeaves_eq_ok_iff.mp leaves
  refine ⟨_, rfl, ?_⟩
  rw [verifyLiveReceipt_iff, winsOwnTicket_iff opened, ← sealTickets_own complete sealed]
  constructor
  · exact fun accepted => accepted.2.1
  · exact fun tickets => ⟨⟨rfl, art, rfl, genuine, rfl⟩, tickets, foldSeal, rfl, foldVerified⟩

end Acceptance

/-- A runner that has proposed the claim, frozen and opened its quiet beacon. -/
def linkRunner : EpochRunner Step.counting :=
  { EpochRunner.genesis Step.counting 1 with
    phase := .beaconReady
    claims := [linkClaim 1]
    claimsRoot := some (linkArtifact 1).claimsRoot
    beacon := some (linkArtifact 1) }

/-- What a peer with one winning ticket gossips. -/
def peerLeaf : ClusterAcc := selfFold .truncating 1 [ticketOf 1 Fx.one]

theorem settled_receipt_accepted_iff_own_ticket :
    let policy := { TicketPolicy.default with want := 1 }
    WinsOwnTicket sampleCrates linkRunner [] () () policy ∧
    ∃ after receipt, linkRunner.settleWithPeers sampleCrates [] () () policy [peerLeaf] =
        .ok after ∧
      after.receipt = some receipt ∧
      verifyLiveReceipt sampleCrates.hemera sampleCrates.zheng receipt = true := by
  intro policy
  have wins : WinsOwnTicket sampleCrates linkRunner [] () () policy :=
    ⟨by decide, linkArtifact 1, rfl, 0, by decide, by decide +kernel⟩
  obtain ⟨after, settled⟩ := toOption_isSome_iff.mp (by decide +kernel :
    (linkRunner.settleWithPeers sampleCrates [] () () policy [peerLeaf]).toOption.isSome = true)
  obtain ⟨receipt, issued, accepted⟩ :=
    settled_receipt_accepted_iff Step.counting_complete [peerLeaf] settled
  exact ⟨wins, after, receipt, settled, issued, accepted.mpr wins⟩

/-- A node that wins nothing settles from its peer's ticket, and the receipt is
refused. -/
theorem settled_from_peers_rejected :
    ((linkRunner.settleWithPeers sampleCrates [] () ()
        { TicketPolicy.default with maxAttempts := 1, settleTarget := 0 } [peerLeaf]).toOption.bind
      EpochRunner.receipt).map (verifyLiveReceipt sampleCrates.hemera sampleCrates.zheng) =
      some false := by
  decide +kernel

section Binding

variable {hemera : Hemera} {zheng : Zheng}

/-- The seals are about this settlement: its beacon, its claims and, at the root
of the tree, its sample count. -/
def SealsBind (hemera : Hemera) (receipt : SettleReceipt zheng) : Prop :=
  (∀ sealed ∈ receipt.ticketSeal, ∃ k,
    sealed.statement = ticketStatement hemera receipt.beacon receipt.claimsRoot k) ∧
  ∀ sealed ∈ receipt.foldSeal,
    sealed.statement = ticketStatement hemera receipt.beacon receipt.claimsRoot receipt.sampleCount

/-- The prover of the code makes a seal that verifies for any sample count. -/
theorem foldSeal_for (complete : Step.Complete zheng) (hemera : Hemera) (beacon cluster : Particle)
    (k : UInt64) :
    ∃ sealed : FoldSeal zheng, verifyFoldSeal zheng sealed = true ∧
      sealed.statement = ticketStatement hemera beacon cluster k := by
  let leaf : ClusterAcc := { ClusterAcc.default with k }
  obtain ⟨sealed, proven, verified⟩ : ∃ sealed,
      proveFoldTree hemera zheng beacon cluster [leaf] = .ok (leaf, sealed) ∧
      verifyFoldSeal zheng sealed = true :=
    proveFoldTree_ok complete hemera beacon cluster (List.cons_ne_nil leaf [])
  have statement := proveFoldTree_statement proven
  exact ⟨sealed, verified, statement⟩

/-- Whatever a receipt says, seals of another settlement are accepted in it as
soon as any seals are: only a receipt that is refused for its hash or its beacon
keeps them out. -/
theorem accepted_seals_bind_iff (complete : Step.Complete zheng) (hemera : Hemera)
    (receipt : SettleReceipt zheng) :
    (∀ ticketSeal foldSeal,
      verifyLiveReceipt hemera zheng { receipt with ticketSeal, foldSeal } = true →
        SealsBind hemera { receipt with ticketSeal, foldSeal }) ↔
      ¬ Genuine hemera receipt := by
  constructor
  · intro binds genuine
    obtain ⟨foreign, verified, statement⟩ := foldSeal_for complete hemera receipt.beacon
      receipt.claimsRoot (receipt.sampleCount + 1)
    have accepted : verifyLiveReceipt hemera zheng
        { receipt with ticketSeal := some foreign, foldSeal := some foreign } = true :=
      verifyLiveReceipt_iff.mpr ⟨genuine, ⟨foreign, rfl, verified⟩, foreign, rfl, verified⟩
    have bound := (binds _ _ accepted).2 foreign rfl
    have count : receipt.sampleCount + 1 = receipt.sampleCount :=
      ticketStatement_count (statement.symm.trans bound)
    simp at count
  · intro refused ticketSeal foldSeal accepted
    exact absurd (verifyLiveReceipt_iff.mp accepted).1 refused

end Binding

theorem accepted_seals_bind_iff_other_hash :
    let receipt := { linkReceipt 1 1000 1000 with receiptHash := Particle.zero }
    ¬ Genuine Hemera.truncating receipt ∧ ∀ ticketSeal foldSeal,
      verifyLiveReceipt Hemera.truncating Step.counting { receipt with ticketSeal, foldSeal } =
        true →
      SealsBind Hemera.truncating { receipt with ticketSeal, foldSeal } := by
  intro receipt
  have refused : ¬ Genuine Hemera.truncating receipt :=
    fun genuine => absurd genuine.1 (by decide +kernel)
  exact ⟨refused, (accepted_seals_bind_iff Step.counting_complete _ receipt).mpr refused⟩

/-- The seal of a tree that was folded for other claims, under another beacon, is
accepted in a receipt as both of its seals. -/
theorem foreign_seal_accepted :
    ∃ sealed, proveFoldTree Hemera.truncating Step.counting (linkArtifact 2).beacon
        (linkArtifact 2).claimsRoot [peerLeaf] = .ok (peerLeaf, sealed) ∧
      verifyLiveReceipt Hemera.truncating Step.counting { linkReceipt 1 1000 1000 with
        ticketSeal := some sealed, foldSeal := some sealed } = true ∧
      ∀ k, sealed.statement ≠ ticketStatement Hemera.truncating (linkReceipt 1 1000 1000).beacon
        (linkReceipt 1 1000 1000).claimsRoot k := by
  obtain ⟨sealed, proven, verified⟩ : ∃ sealed, proveFoldTree Hemera.truncating Step.counting
      (linkArtifact 2).beacon (linkArtifact 2).claimsRoot [peerLeaf] = .ok (peerLeaf, sealed) ∧
      verifyFoldSeal Step.counting sealed = true :=
    proveFoldTree_ok Step.counting_complete _ _ _ (List.cons_ne_nil peerLeaf [])
  have genuine : Genuine Hemera.truncating (linkReceipt 1 1000 1000) :=
    ⟨rfl, linkArtifact 1, rfl, by decide +kernel, rfl⟩
  have statement := proveFoldTree_statement proven
  refine ⟨sealed, proven, verifyLiveReceipt_iff.mpr
    ⟨genuine, ⟨sealed, rfl, verified⟩, sealed, rfl, verified⟩, fun k same => ?_⟩
  have outputs : Hemera.truncating.hash
        ((linkArtifact 2).beacon.toList ++ (linkArtifact 2).claimsRoot.toList) =
      Hemera.truncating.hash
        ((linkArtifact 1).beacon.toList ++ (linkArtifact 1).claimsRoot.toList) :=
    congrArg Statement.outputHash (statement.symm.trans same)
  exact absurd outputs (by decide +kernel)

section Produced

variable {crates : Crates} {runner after : EpochRunner crates.zheng} {base : List Link}
  {ctx : crates.tru.Context} {params : crates.tru.FocusingParams} {policy : TicketPolicy}

open EpochRunner

/-- The seals a settlement makes are about that settlement. -/
theorem settled_seals_bind {peerAccs : List ClusterAcc}
    (settled : runner.settleWithPeers crates base ctx params policy peerAccs = .ok after) :
    ∃ receipt, after.receipt = some receipt ∧ SealsBind crates.hemera receipt := by
  obtain ⟨_, _, art, receipt, _, _, _, leaves, rfl⟩ := settleWithPeers_eq_ok_iff.mp settled
  obtain ⟨ticketSeal, root, foldSeal, shares, sealed, proven, _, _, _, rfl⟩ :=
    settleLeaves_eq_ok_iff.mp leaves
  refine ⟨_, rfl, ?_, ?_⟩
  · intro made present
    obtain ⟨_, rfl⟩ | ⟨sealing, rfl, batch⟩ := sealTickets_eq_ok sealed
    · cases present
    · cases present
      exact ⟨_, proveSettlementBatch_statement batch⟩
  · intro made present
    cases present
    exact proveFoldTree_statement proven

end Produced

end Foculus.Epoch

import Foculus.Epoch.LiveReceipt
import Foculus.Epoch.Window
import Foculus.Settlement.SampleCount

namespace Foculus.Epoch

open Data Settlement

/-! # The two settlement pipelines

`settle_with_peer_accs` settles in one call what an epoch runner settles step by
step.  The call tests the root for samples, the runner tests its leaves; the call
falls back to an unproven tree, the runner fails.  With a complete zheng and
leaves that miners have folded they agree. -/

section Pipelines

variable {crates : Crates} {epoch : UInt64} {prevBeacon : Particle} {base : List Link}
  {claims : List RewardClaim} {ctx : crates.tru.Context} {params : crates.tru.FocusingParams}
  {budget : UInt64} {policy : TicketPolicy} {peerAccs : List ClusterAcc}

open EpochRunner

/-- A runner of its own: propose the claims in order, freeze, open the quiet
beacon, settle. -/
def settleThroughRunner (crates : Crates) (epoch : UInt64) (prevBeacon : Particle)
    (base : List Link) (claims : List RewardClaim) (ctx : crates.tru.Context)
    (params : crates.tru.FocusingParams) (budget : UInt64) (policy : TicketPolicy)
    (peerAccs : List ClusterAcc) : Except EpochError (EpochRunner crates.zheng) := do
  let runner ← claims.foldlM propose { new crates.zheng epoch prevBeacon with budget }
  let runner ← runner.freeze crates.hemera
  let runner ← runner.openQuietBeacon crates.hemera
  runner.settleWithPeers crates base ctx params policy peerAccs

/-- The runner when its quiet beacon is open. -/
def quietRunner (crates : Crates) (epoch : UInt64) (prevBeacon : Particle)
    (claims : List RewardClaim) (budget : UInt64) : EpochRunner crates.zheng :=
  { new crates.zheng epoch prevBeacon with
    budget
    claims
    claimsRoot := some (quietArtifact crates epoch prevBeacon claims).claimsRoot
    beacon := some (quietArtifact crates epoch prevBeacon claims)
    phase := .beaconReady }

theorem settleThroughRunner_eq :
    settleThroughRunner crates epoch prevBeacon base claims ctx params budget policy peerAccs =
      if claims.isEmpty then .error .emptyClaims
      else (quietRunner crates epoch prevBeacon claims budget).settleWithPeers crates base ctx params
        policy peerAccs := by
  let window : Window crates :=
    { epoch, prevBeacon, budget, outerT := testOuterT, signalVdfs := [], base, ctx, params, policy }
  have opened := window.opened_eq claims
  have verified : verifyBeacon crates.hemera (window.artifact (claims.map RewardClaim.id)) = true :=
    quietArtifact_verified crates epoch prevBeacon claims
  have unrolled : settleThroughRunner crates epoch prevBeacon base claims ctx params budget policy
      peerAccs = window.opened claims >>= fun runner =>
        runner.settleWithPeers crates base ctx params policy peerAccs := by
    simp only [Window.opened, bind_assoc]
    rfl
  rw [unrolled, opened, verified]
  simp only [Bool.not_true, Bool.false_eq_true, if_false]
  split_ifs
  · rfl
  · rfl

theorem settleThroughRunner_eq_ok_iff {receipt : SettleReceipt crates.zheng} :
    (∃ after, settleThroughRunner crates epoch prevBeacon base claims ctx params budget policy
      peerAccs = .ok after ∧ after.receipt = some receipt) ↔
      claims ≠ [] ∧ budget ≠ 0 ∧
      (∃ leaf ∈ quietLeaves crates epoch prevBeacon base claims ctx params policy peerAccs,
        leaf.k ≠ 0) ∧
      settleLeaves crates (quietRunner crates epoch prevBeacon claims budget) base ctx params policy
        (quietArtifact crates epoch prevBeacon claims) (contributionsWithRho crates.tru claims)
        (directedTotal crates.tru base claims ctx params)
        (quietTickets crates epoch prevBeacon base claims ctx params policy)
        (quietLeaves crates epoch prevBeacon base claims ctx params policy peerAccs) =
          .ok receipt := by
  rw [settleThroughRunner_eq]
  by_cases empty : claims.isEmpty
  · have none_ := List.isEmpty_iff.mp empty
    simp [none_]
  · rw [if_neg empty]
    simp only [settleWithPeers_eq_ok_iff]
    constructor
    · intro settles
      obtain ⟨after, ⟨_, funded, art, made, opened, _, sampled, sealed, rfl⟩, issued⟩ := settles
      cases opened
      cases issued
      exact ⟨by simpa using empty, funded, sampled, sealed⟩
    · intro settles
      obtain ⟨_, funded, sampled, sealed⟩ := settles
      exact ⟨_, ⟨rfl, funded, _, receipt, rfl, quietArtifact_verified crates epoch prevBeacon claims,
        sampled, sealed, rfl⟩, rfl⟩

theorem settleThroughRunner_issues {after : EpochRunner crates.zheng}
    (settled : settleThroughRunner crates epoch prevBeacon base claims ctx params budget policy
      peerAccs = .ok after) : ∃ receipt, after.receipt = some receipt := by
  rw [settleThroughRunner_eq] at settled
  split_ifs at settled
  obtain ⟨_, _, _, receipt, _, _, _, _, rfl⟩ := settleWithPeers_eq_ok_iff.mp settled
  exact ⟨receipt, rfl⟩

/-- Both pipelines seal the tickets that were ground, and seal them alike. -/
theorem sealedTickets_eq_ok_iff (complete : Step.Complete crates.zheng)
    {ticketSeal : Option (FoldSeal crates.zheng)} :
    sealedTickets crates base ctx params (contributionsWithRho crates.tru claims)
        (quietArtifact crates epoch prevBeacon claims).beacon
        (quietArtifact crates epoch prevBeacon claims).claimsRoot
        (quietTickets crates epoch prevBeacon base claims ctx params policy) = .ok ticketSeal ↔
      sealTickets crates base (contributionsWithRho crates.tru claims) ctx params
        (quietArtifact crates epoch prevBeacon claims).beacon
        (quietArtifact crates epoch prevBeacon claims).claimsRoot
        (quietTickets crates epoch prevBeacon base claims ctx params policy) = .ok ticketSeal := by
  rw [sealedTickets, sealTickets]
  by_cases idle : quietTickets crates epoch prevBeacon base claims ctx params policy = []
  · rw [idle]
    simp
  · obtain ⟨made, proven, verified⟩ := proveReplayedBatch_ok complete idle grindSettlement_sound
    have busy : ¬ (quietTickets crates epoch prevBeacon base claims ctx params policy).isEmpty =
        true := by simpa using idle
    rw [if_neg busy, if_neg busy, proven]
    simp [verified, Except.mapError, Except.map]

/-- With leaves that miners have folded, a root with samples is a leaf with
samples, and there is a ticket or a peer. -/
theorem root_sampled_iff (peers : ∀ peer ∈ peerAccs, ∃ tickets,
      peer = selfFold crates.hemera claims.length tickets) :
    (¬ (quietTickets crates epoch prevBeacon base claims ctx params policy = [] ∧ peerAccs = []) ∧
      (treeRoot crates.hemera
        (quietLeaves crates epoch prevBeacon base claims ctx params policy peerAccs)).k ≠ 0) ↔
      ∃ leaf ∈ quietLeaves crates epoch prevBeacon base claims ctx params policy peerAccs,
        leaf.k ≠ 0 := by
  have idle : ∀ leaf ∈ quietLeaves crates epoch prevBeacon base claims ctx params policy peerAccs,
      leaf.IdleUnseen := by
    intro leaf member
    rcases List.mem_cons.mp member with rfl | peer
    · exact selfFold_idleUnseen crates.hemera _ _
    · obtain ⟨tickets, rfl⟩ := peers leaf peer
      exact selfFold_idleUnseen crates.hemera _ _
  have nonempty : quietLeaves crates epoch prevBeacon base claims ctx params policy peerAccs ≠ [] :=
    List.cons_ne_nil _ _
  rw [Ne, treeRoot_idle nonempty idle]
  push Not
  constructor
  · exact fun both => both.2
  · intro sampled
    refine ⟨fun noTickets noPeers => ?_, sampled⟩
    obtain ⟨leaf, member, counted⟩ := sampled
    rw [noPeers, quietLeaves, noTickets, List.mem_singleton] at member
    rw [member] at counted
    exact counted rfl

/-- Both succeed and the runner holds the receipt that was returned, or both fail. -/
inductive SettleAlike {zheng : Zheng} : Except RewardError (SettleReceipt zheng) →
    Except EpochError (EpochRunner zheng) → Prop where
  | settled {receipt : SettleReceipt zheng} {after : EpochRunner zheng} :
      after.receipt = some receipt → SettleAlike (.ok receipt) (.ok after)
  | failed {reason : RewardError} {error : EpochError} : SettleAlike (.error reason) (.error error)

theorem SettleAlike.of_ok {zheng : Zheng} {direct : Except RewardError (SettleReceipt zheng)}
    {runner : Except EpochError (EpochRunner zheng)} {receipt : SettleReceipt zheng}
    (alike : SettleAlike direct runner) (returned : direct = .ok receipt) :
    ∃ after, runner = .ok after ∧ after.receipt = some receipt := by
  cases alike with
  | settled issued =>
      cases returned
      exact ⟨_, rfl, issued⟩
  | failed => cases returned

/-- Whatever the claims, the policy and the miners' leaves, both pipelines fail,
or both settle with one and the same receipt. -/
theorem pipelines_agree (crates : Crates) (complete : Step.Complete crates.zheng)
    (epoch : UInt64) (prevBeacon : Particle) (base : List Link) (claims : List RewardClaim)
    (ctx : crates.tru.Context) (params : crates.tru.FocusingParams) (budget : UInt64)
    (policy : TicketPolicy) (peerAccs : List ClusterAcc)
    (peers : ∀ peer ∈ peerAccs, ∃ tickets, peer = selfFold crates.hemera claims.length tickets) :
    SettleAlike
      (settleWithPeerAccs crates epoch prevBeacon base claims ctx params budget policy peerAccs)
      (settleThroughRunner crates epoch prevBeacon base claims ctx params budget policy
        peerAccs) := by
  have same (receipt : SettleReceipt crates.zheng) :
      settleWithPeerAccs crates epoch prevBeacon base claims ctx params budget policy peerAccs =
        .ok receipt ↔
      ∃ after, settleThroughRunner crates epoch prevBeacon base claims ctx params budget policy
        peerAccs = .ok after ∧ after.receipt = some receipt := by
    rw [settleWithPeerAccs_eq_ok_iff, settleThroughRunner_eq_ok_iff, settleLeaves_eq_ok_iff]
    constructor
    · intro settles
      obtain ⟨inhabited, funded, busy, ticketSeal, root, foldSeal, shares, sealed, folded, counted,
        precise, allocated, rfl⟩ := settles
      obtain ⟨rfl, made, rfl, proven, verified⟩ :=
        (foldRoot_eq_iff complete (List.cons_ne_nil _ _)).mp folded
      exact ⟨inhabited, funded, (root_sampled_iff peers).mp ⟨busy, counted⟩, ticketSeal, _, made,
        shares, (sealedTickets_eq_ok_iff complete).mp sealed, proven, verified, precise, allocated,
        rfl⟩
    · intro settles
      obtain ⟨inhabited, funded, sampled, ticketSeal, root, made, shares, sealed, proven, verified,
        precise, allocated, rfl⟩ := settles
      obtain ⟨_, rfl⟩ := proveFoldTree_root proven
      obtain ⟨busy, counted⟩ := (root_sampled_iff peers).mpr sampled
      exact ⟨inhabited, funded, busy, ticketSeal, _, some made, shares,
        (sealedTickets_eq_ok_iff complete).mpr sealed,
        (foldRoot_eq_iff complete (List.cons_ne_nil _ _)).mpr ⟨rfl, made, rfl, proven, verified⟩,
        counted, precise, allocated, rfl⟩
  cases direct : settleWithPeerAccs crates epoch prevBeacon base claims ctx params budget policy
      peerAccs with
  | ok receipt =>
      obtain ⟨after, settled, issued⟩ := (same receipt).mp direct
      rw [settled]
      exact .settled issued
  | error reason =>
      cases settled : settleThroughRunner crates epoch prevBeacon base claims ctx params budget
          policy peerAccs with
      | error error => exact .failed
      | ok after =>
          obtain ⟨receipt, issued⟩ := settleThroughRunner_issues settled
          have returned := (same receipt).mpr ⟨after, settled, issued⟩
          cases direct.symm.trans returned

end Pipelines

/-- One claim, one ticket of the node and one of a peer. -/
theorem pipelines_agree_one_claim :
    let policy := { TicketPolicy.default with want := 1 }
    (∀ peer ∈ [peerLeaf], ∃ tickets, peer = selfFold sampleCrates.hemera [linkClaim 1].length tickets) ∧
    ∃ direct after,
      settleWithPeerAccs sampleCrates 1 genesisPrev [] [linkClaim 1] () () 1000 policy [peerLeaf] =
        .ok direct ∧
      settleThroughRunner sampleCrates 1 genesisPrev [] [linkClaim 1] () () 1000 policy [peerLeaf] =
        .ok after ∧
      after.receipt = some direct := by
  intro policy
  have peers : ∀ peer ∈ [peerLeaf], ∃ tickets,
      peer = selfFold sampleCrates.hemera [linkClaim 1].length tickets := by
    intro peer member
    rw [List.mem_singleton.mp member, peerLeaf, List.length_singleton]
    exact ⟨[ticketOf 1 Fx.one], rfl⟩
  obtain ⟨direct, settled⟩ := toOption_isSome_iff.mp (by decide +kernel :
    (settleWithPeerAccs sampleCrates 1 genesisPrev [] [linkClaim 1] () () 1000 policy
      [peerLeaf]).toOption.isSome = true)
  obtain ⟨after, through, issued⟩ := SettleAlike.of_ok (pipelines_agree sampleCrates
    Step.counting_complete 1 genesisPrev [] [linkClaim 1] () () 1000 policy [peerLeaf] peers) settled
  exact ⟨peers, direct, after, settled, through, issued⟩

end Foculus.Epoch

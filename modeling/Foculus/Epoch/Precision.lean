import Foculus.Epoch.LiveReceipt
import Foculus.Settlement.SampleCount

namespace Foculus.Epoch

open Data Settlement

/-! # The precision gate against peer accumulators

The gate compares the count of the folded root.  A fold of disjoint accumulators
adds the counts its sides state, so a peer whose count exceeds its samples lifts
the root over the gate, unless a later fold counts the samples again. -/

section Gate

variable {crates : Crates} {runner after : EpochRunner crates.zheng} {base : List Link}
  {ctx : crates.tru.Context} {params : crates.tru.FocusingParams} {policy : TicketPolicy}

open EpochRunner

/-- The surpluses of the leaves whose counts reach the root cancel out.  In the second
case the count stands at the largest `u64` and happens to be right. -/
def SurplusCancels (leaves : List ClusterAcc) : Prop :=
  surpluses (keptLeaves leaves) = 0 ∧ (unitedSamples leaves).size < 2 ^ 64 ∨
    0 < surpluses (keptLeaves leaves) ∧ (unitedSamples leaves).size = 2 ^ 64 - 1

theorem own_surplus (crates : Crates) (runner : EpochRunner crates.zheng) (base : List Link)
    (ctx : crates.tru.Context) (params : crates.tru.FocusingParams) (policy : TicketPolicy)
    (art : BeaconArtifact) :
    (selfFold crates.hemera (contributionsWithRho crates.tru runner.claims).length
      (ownTickets crates runner base ctx params policy art)).surplus = 0 :=
  selfFold_surplus crates.hemera grindSettlement_dimension grindSettlement_length_lt

/-- A settlement has as many distinct samples as the gate asks for, and states their
number, exactly when no surplus of its leaves reaches the root.  Peers whose counts are
those of their samples have none, and leaves of one dimension that share no sample are
all counted. -/
theorem settled_precise_iff (peerAccs : List ClusterAcc)
    (settled : runner.settleWithPeers crates base ctx params policy peerAccs = .ok after) :
    ∃ art receipt root sealed, runner.beacon = some art ∧ after.receipt = some receipt ∧
      proveFoldTree crates.hemera crates.zheng art.beacon art.claimsRoot
        (leavesWith crates runner base ctx params policy art peerAccs) = .ok (root, sealed) ∧
      (((ClusterAcc.kMin crates.tru policy.precisionEpsilon policy.precisionDelta).toNat ≤
            root.seen.size ∧ receipt.sampleCount.toNat = root.seen.size) ↔
        SurplusCancels (leavesWith crates runner base ctx params policy art peerAccs)) ∧
      ((∀ peer ∈ peerAccs, peer.surplus = 0) → surpluses (keptLeaves
        (leavesWith crates runner base ctx params policy art peerAccs)) = 0) ∧
      ∀ width, (∀ leaf ∈ leavesWith crates runner base ctx params policy art peerAccs,
          leaf.sumM.length = width) →
        (leavesWith crates runner base ctx params policy art peerAccs).Pairwise
          (fun left right => (left.seen ∩ right.seen).size = 0) →
        keptLeaves (leavesWith crates runner base ctx params policy art peerAccs) =
          leavesWith crates runner base ctx params policy art peerAccs := by
  obtain ⟨_, _, art, receipt, opened, _, _, sealed, rfl⟩ := settleWithPeers_eq_ok_iff.mp settled
  obtain ⟨_, root, foldSeal, _, _, proven, _, precise, _, rfl⟩ := settleLeaves_eq_ok_iff.mp sealed
  obtain ⟨nonempty, rootIs⟩ := proveFoldTree_root proven
  refine ⟨art, _, root, foldSeal, opened, rfl, proven, ?_, fun honest => ?_,
    fun width => keptLeaves_eq nonempty⟩
  · obtain ⟨samples, count, counted, total⟩ := treeRoot_counted crates.hemera nonempty
    rw [← rootIs] at samples counted
    have gate := UInt64.le_iff_toNat_le.mp (of_decide_eq_true precise)
    change (_ ∧ root.k.toNat = root.seen.size) ↔ _
    rw [counted, lenU64_toNat] at gate ⊢
    rw [SurplusCancels, samples]
    omega
  · refine surpluses_kept_eq_zero nonempty fun leaf member => ?_
    rcases List.mem_cons.mp member with rfl | peer
    · exact own_surplus crates runner base ctx params policy art
    · exact honest leaf peer

end Gate

/-- What a peer gossips that counts a thousand samples and has none. -/
def forgedLeaf : ClusterAcc where
  sumM := [Fx.one]
  k := 1000
  seen := ∅
  commitment := Particle.zero

/-- The node wins nothing and settles with the honest leaf of one peer. -/
theorem settled_precise_iff_one_peer :
    let policy := { TicketPolicy.default with maxAttempts := 1, settleTarget := 0 }
    peerLeaf.surplus = 0 ∧ ∃ after receipt root sealed,
      linkRunner.settleWithPeers sampleCrates [] () () policy [peerLeaf] = .ok after ∧
      after.receipt = some receipt ∧
      proveFoldTree sampleCrates.hemera sampleCrates.zheng (linkArtifact 1).beacon
        (linkArtifact 1).claimsRoot (EpochRunner.leavesWith sampleCrates linkRunner [] () () policy
          (linkArtifact 1) [peerLeaf]) = .ok (root, sealed) ∧
      (ClusterAcc.kMin sampleCrates.tru policy.precisionEpsilon policy.precisionDelta).toNat ≤
        root.seen.size ∧
      receipt.sampleCount.toNat = root.seen.size := by
  intro policy
  have honest : peerLeaf.surplus = 0 := by decide +kernel
  obtain ⟨after, settled⟩ := toOption_isSome_iff.mp (by decide +kernel :
    (linkRunner.settleWithPeers sampleCrates [] () () policy [peerLeaf]).toOption.isSome = true)
  obtain ⟨art, receipt, root, sealed, opened, issued, proven, precise, cancels, -⟩ :=
    settled_precise_iff [peerLeaf] settled
  cases opened
  have none_ := cancels (by simpa using honest)
  have few : (unitedSamples (EpochRunner.leavesWith sampleCrates linkRunner [] () () policy
      (linkArtifact 1) [peerLeaf])).size < 2 ^ 64 := by decide +kernel
  obtain ⟨enough, counted⟩ := precise.mpr (.inl ⟨none_, few⟩)
  exact ⟨honest, after, receipt, root, sealed, settled, issued, proven, enough, counted⟩

/-- The forged leaf alone is enough to settle: a thousand samples are stated, and
there are none. -/
theorem forged_count_settles :
    let policy := { TicketPolicy.default with maxAttempts := 1, settleTarget := 0 }
    ((linkRunner.settleWithPeers sampleCrates [] () () policy [forgedLeaf]).toOption.bind
      EpochRunner.receipt).map SettleReceipt.sampleCount = some 1000 ∧
    ((proveFoldTree sampleCrates.hemera sampleCrates.zheng (linkArtifact 1).beacon
      (linkArtifact 1).claimsRoot (EpochRunner.leavesWith sampleCrates linkRunner [] () () policy
        (linkArtifact 1) [forgedLeaf])).toOption.map fun result => result.1.seen.size) = some 0 ∧
    ClusterAcc.kMin sampleCrates.tru policy.precisionEpsilon policy.precisionDelta = 1 := by
  decide +kernel

end Foculus.Epoch

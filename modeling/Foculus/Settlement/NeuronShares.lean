import Foculus.Epoch.Certificate
import Foculus.Settlement.Allocation

namespace Foculus.Settlement

open Data Epoch

/-! # The shares of one neuron (`share_of` of `src/rewards.rs`)

A receipt holds one share for each claim, and `share_of` reads the first share
of the neuron only. -/

/-- The amounts of all shares of a neuron. -/
def neuronTotal (shares : List SettledShare) (neuron : Particle) : Nat :=
  (amounts (shares.filter fun settled => settled.neuron == neuron)).sum

def neurons (shares : List SettledShare) : List Particle :=
  (shares.map SettledShare.neuron).dedup

/-- What `share_of` says accounts for every share. -/
structure CountsAll {zheng : Zheng} (receipt : SettleReceipt zheng) : Prop where
  perNeuron : ∀ neuron, (shareOf receipt neuron).toNat = neuronTotal receipt.shares neuron
  total : ((neurons receipt.shares).map fun neuron => (shareOf receipt neuron).toNat).sum =
    receipt.budget.toNat

/-- A later entry of a neuron is rounded down to nothing and is not the one that
takes the rest. -/
def PaidOnce (tru : Tru) (budget : UInt64) (conserved : List (Particle × Fx)) : Prop :=
  ∀ i j entry later, i < j → conserved[i]? = some entry → conserved[j]? = some later →
    later.1 = entry.1 →
    fxWeight tru later.2 * budget.toNat < (weights tru conserved).sum ∧
      j ≠ favoured (weights tru conserved)

section Lists

variable {shares : List SettledShare}

theorem neuronTotal_cons (settled : SettledShare) (rest : List SettledShare) (neuron : Particle) :
    neuronTotal (settled :: rest) neuron =
      (if settled.neuron = neuron then settled.amount.toNat else 0) + neuronTotal rest neuron := by
  rw [neuronTotal, List.filter_cons]
  by_cases own : settled.neuron = neuron
  · simp [own, neuronTotal]
  · simp [own, neuronTotal]

theorem neuronTotal_eq_zero_iff {neuron : Particle} :
    neuronTotal shares neuron = 0 ↔
      ∀ settled ∈ shares, settled.neuron = neuron → settled.amount = 0 := by
  rw [neuronTotal, List.sum_eq_zero_iff_forall_eq_nat]
  constructor
  · intro nothing settled member own
    have listed : settled.amount.toNat ∈
        amounts (shares.filter fun settled => settled.neuron == neuron) :=
      List.mem_map_of_mem (List.mem_filter.mpr ⟨member, beq_iff_eq.mpr own⟩)
    exact UInt64.toNat_inj.mp (nothing _ listed)
  · intro nothing amount listed
    obtain ⟨settled, member, rfl⟩ := List.mem_map.mp listed
    obtain ⟨member, own⟩ := List.mem_filter.mp member
    rw [nothing settled member (beq_iff_eq.mp own)]
    rfl

/-- The first amount of a neuron. -/
def firstAmount (shares : List SettledShare) (neuron : Particle) : UInt64 :=
  ((shares.find? fun settled => settled.neuron == neuron).map SettledShare.amount).getD 0

theorem firstAmount_cons (settled : SettledShare) (rest : List SettledShare) (neuron : Particle) :
    firstAmount (settled :: rest) neuron =
      if settled.neuron = neuron then settled.amount else firstAmount rest neuron := by
  rw [firstAmount, List.find?_cons]
  by_cases own : settled.neuron = neuron
  · simp [own]
  · rw [beq_false_of_ne own, if_neg own, firstAmount]

theorem firstAmount_le (shares : List SettledShare) (neuron : Particle) :
    (firstAmount shares neuron).toNat ≤ neuronTotal shares neuron := by
  induction shares with
  | nil => exact Nat.zero_le _
  | cons settled rest ih =>
      rw [firstAmount_cons, neuronTotal_cons]
      split_ifs
      · exact Nat.le_add_right _ _
      · rwa [Nat.zero_add]

/-- Reading the first amount of every neuron misses nothing exactly when the
later shares of a neuron pay nothing. -/
theorem firstAmount_eq_total_iff :
    (∀ neuron, (firstAmount shares neuron).toNat = neuronTotal shares neuron) ↔
      shares.Pairwise fun earlier later => later.neuron = earlier.neuron → later.amount = 0 := by
  induction shares with
  | nil => simp [firstAmount, neuronTotal]
  | cons settled rest ih =>
      rw [List.pairwise_cons, ← ih, ← neuronTotal_eq_zero_iff]
      simp only [firstAmount_cons, neuronTotal_cons]
      constructor
      · intro all
        have own := all settled.neuron
        rw [if_pos rfl, if_pos rfl] at own
        have none : neuronTotal rest settled.neuron = 0 := by omega
        refine ⟨none, fun neuron => ?_⟩
        by_cases same : settled.neuron = neuron
        · have below := firstAmount_le rest neuron
          rw [← same] at below ⊢
          omega
        · have other := all neuron
          rwa [if_neg same, if_neg same, Nat.zero_add] at other
      · rintro ⟨none, later⟩ neuron
        split_ifs with own
        · rw [← own, none, Nat.add_zero]
        · rw [later neuron, Nat.zero_add]

/-- Grouped by neuron, the amounts are all there. -/
theorem neuronTotal_sum (shares : List SettledShare) :
    ((neurons shares).map (neuronTotal shares)).sum = (amounts shares).sum := by
  suffices grouped : ∀ keys : List Particle, keys.Nodup →
      (∀ settled ∈ shares, settled.neuron ∈ keys) →
      (keys.map (neuronTotal shares)).sum = (amounts shares).sum from
    grouped (neurons shares) (List.nodup_dedup _) fun settled member =>
      List.mem_dedup.mpr (List.mem_map_of_mem member)
  intro keys distinct covered
  induction shares with
  | nil => exact List.sum_eq_zero fun total member => by simp_all [neuronTotal]
  | cons settled rest ih =>
      have later := ih fun other member => covered other (List.mem_cons_of_mem _ member)
      have once : (keys.map fun neuron =>
          if settled.neuron = neuron then settled.amount.toNat else 0).sum =
            settled.amount.toNat := by
        rw [← List.sum_toFinset _ distinct, Finset.sum_ite_eq,
          if_pos (List.mem_toFinset.mpr (covered settled List.mem_cons_self))]
      have split : (keys.map (neuronTotal (settled :: rest))) = keys.map fun neuron =>
          (if settled.neuron = neuron then settled.amount.toNat else 0) + neuronTotal rest neuron :=
        List.map_congr_left fun neuron _ => neuronTotal_cons settled rest neuron
      rw [split, List.sum_map_add, once, later, amounts_cons, List.sum_cons]

end Lists

section Settled

variable {crates : Crates}

/-- The receipts of the settlements, each with the raw shares of its claims. -/
inductive Settles (crates : Crates) :
    SettleReceipt crates.zheng → List (Particle × Fx) → Prop where
  | epoch {epoch : UInt64} {prevBeacon : Particle} {base : List Link} {claims : List RewardClaim}
      {ctx : crates.tru.Context} {params : crates.tru.FocusingParams} {samples budget : UInt64}
      {receipt : SettleReceipt crates.zheng} :
      settleEpoch crates epoch prevBeacon base claims ctx params samples budget = .ok receipt →
      Settles crates receipt
        (shapley crates.hemera crates.tru base (contributionsWithRho crates.tru claims) ctx params
          samples (quietArtifact crates epoch prevBeacon claims).beacon)
  | peers {epoch : UInt64} {prevBeacon : Particle} {base : List Link} {claims : List RewardClaim}
      {ctx : crates.tru.Context} {params : crates.tru.FocusingParams} {budget : UInt64}
      {policy : TicketPolicy} {peerAccs : List ClusterAcc} {receipt : SettleReceipt crates.zheng} :
      settleWithPeerAccs crates epoch prevBeacon base claims ctx params budget policy peerAccs =
        .ok receipt →
      Settles crates receipt
        ((foldRoot crates (quietArtifact crates epoch prevBeacon claims).beacon
          (quietArtifact crates epoch prevBeacon claims).claimsRoot policy.miner policy.foldTarget
          (quietLeaves crates epoch prevBeacon base claims ctx params policy peerAccs)).1.meanShares
          crates.tru ((contributionsWithRho crates.tru claims).map Contribution.neuron))
  | runner {runner after : EpochRunner crates.zheng} {base : List Link} {ctx : crates.tru.Context}
      {params : crates.tru.FocusingParams} {policy : TicketPolicy} {peerAccs : List ClusterAcc}
      {art : BeaconArtifact} {root : ClusterAcc} {foldSeal : FoldSeal crates.zheng}
      {receipt : SettleReceipt crates.zheng} :
      runner.settleWithPeers crates base ctx params policy peerAccs = .ok after →
      after.receipt = some receipt → runner.beacon = some art →
      proveFoldTree crates.hemera crates.zheng art.beacon art.claimsRoot
        (runner.leavesWith crates base ctx params policy art peerAccs) = .ok (root, foldSeal) →
      Settles crates receipt (root.meanShares crates.tru
        ((contributionsWithRho crates.tru runner.claims).map Contribution.neuron))

theorem Settles.allocated {receipt : SettleReceipt crates.zheng} {raw : List (Particle × Fx)}
    (settles : Settles crates receipt raw) :
    receipt.budget ≠ 0 ∧
      allocateBudget crates.tru crates.tok raw receipt.budget receipt.directedTotal =
        .ok receipt.shares := by
  cases settles with
  | epoch settled =>
      obtain ⟨_, funded, _, allocated, rfl⟩ := settleEpoch_eq_ok_iff.mp settled
      exact ⟨funded, allocated⟩
  | peers settled =>
      obtain ⟨_, funded, _, _, _, _, _, _, folded, _, _, allocated, rfl⟩ :=
        settleWithPeerAccs_eq_ok_iff.mp settled
      rw [folded]
      exact ⟨funded, allocated⟩
  | runner settled issued opened proven =>
      obtain ⟨_, funded, art, _, found, _, _, sealed, rfl⟩ :=
        EpochRunner.settleWithPeers_eq_ok_iff.mp settled
      cases found.symm.trans opened
      cases issued
      obtain ⟨_, _, _, _, _, folded, _, _, allocated, rfl⟩ :=
        EpochRunner.settleLeaves_eq_ok_iff.mp sealed
      cases folded.symm.trans proven
      exact ⟨funded, allocated⟩

/-- Of a budget that is not zero, the shares after a neuron's first pay nothing
exactly when its later entries are rounded away. -/
theorem later_unpaid_iff {tru : Tru} {tok : Tok} {raw conserved : List (Particle × Fx)}
    {budget : UInt64} {directedTotal : Fx} {shares : List SettledShare} (funded : budget ≠ 0)
    (clipped : tok.clipShares raw directedTotal = .ok conserved)
    (allocated : allocateBudget tru tok raw budget directedTotal = .ok shares) :
    (shares.Pairwise fun earlier later => later.neuron = earlier.neuron → later.amount = 0) ↔
      PaidOnce tru budget conserved := by
  obtain ⟨positive, paid⟩ := allocateBudget_amounts clipped allocated
  have pays := List.forall₂_iff_get.mp (allocateBudget_pays clipped allocated)
  have nonzero : budget.toNat ≠ 0 := fun zero => funded (UInt64.toNat_inj.mp zero)
  have unpaid (j : Nat) (inside : j < conserved.length) (settledInside : j < shares.length) :
      shares[j].amount = 0 ↔
        fxWeight tru conserved[j].2 * budget.toNat < (weights tru conserved).sum ∧
          j ≠ favoured (weights tru conserved) := by
    have weighted : (weights tru conserved)[j]? = some (fxWeight tru conserved[j].2) := by
      rw [weights, List.getElem?_map, List.getElem?_eq_getElem inside]
      rfl
    have amount : (favouredParts budget.toNat (weights tru conserved))[j]? =
        some shares[j].amount.toNat := by
      rw [← paid, amounts, List.getElem?_map, List.getElem?_eq_getElem settledInside]
      rfl
    rw [← favouredPart_eq_zero_iff positive nonzero weighted amount, ← UInt64.toNat_inj]
    rfl
  have neuron (j : Nat) (inside : j < conserved.length) (settledInside : j < shares.length) :
      shares[j].neuron = conserved[j].1 :=
    (pays.2 j inside settledInside).neuron_eq
  rw [List.pairwise_iff_getElem]
  constructor
  · intro nothing i j entry later before entryAt laterAt same
    obtain ⟨iInside, rfl⟩ := List.getElem?_eq_some_iff.mp entryAt
    obtain ⟨jInside, rfl⟩ := List.getElem?_eq_some_iff.mp laterAt
    have iSettled : i < shares.length := pays.1 ▸ iInside
    have jSettled : j < shares.length := pays.1 ▸ jInside
    apply (unpaid j jInside jSettled).mp
    apply nothing i j iSettled jSettled before
    rw [neuron j jInside jSettled, neuron i iInside iSettled, same]
  · intro once i j iSettled jSettled before same
    have iInside : i < conserved.length := pays.1 ▸ iSettled
    have jInside : j < conserved.length := pays.1 ▸ jSettled
    rw [neuron j jInside jSettled, neuron i iInside iSettled] at same
    exact (unpaid j jInside jSettled).mpr (once i j _ _ before (List.getElem?_eq_getElem iInside)
      (List.getElem?_eq_getElem jInside) same)

/-- Distinct neurons are enough, whatever their weights. -/
theorem PaidOnce.of_distinct {tru : Tru} {budget : UInt64} {conserved : List (Particle × Fx)}
    (distinct : (conserved.map Prod.fst).Nodup) : PaidOnce tru budget conserved := by
  intro i j entry later before entryAt laterAt same
  have neurons : (conserved.map Prod.fst)[i]? = (conserved.map Prod.fst)[j]? := by
    rw [List.getElem?_map, List.getElem?_map, entryAt, laterAt, Option.map_some, Option.map_some,
      same]
  have inside : i < (conserved.map Prod.fst).length := by
    rw [List.length_map]
    exact (List.getElem?_eq_some_iff.mp entryAt).1
  exact absurd ((List.getElem?_inj inside distinct).mp neurons) (Nat.ne_of_lt before)

/-- `share_of` accounts for every share of a settled receipt exactly when no
neuron has a later entry that is paid. -/
theorem shareOf_countsAll_iff {receipt : SettleReceipt crates.zheng} {raw : List (Particle × Fx)}
    (settles : Settles crates receipt raw) :
    ∃ conserved, crates.tok.clipShares raw receipt.directedTotal = .ok conserved ∧
      (CountsAll receipt ↔ PaidOnce crates.tru receipt.budget conserved) := by
  obtain ⟨funded, allocated⟩ := settles.allocated
  cases clipped : crates.tok.clipShares raw receipt.directedTotal with
  | error reason => simp [allocateBudget, clipped] at allocated
  | ok conserved =>
      refine ⟨conserved, rfl, ?_⟩
      rw [← later_unpaid_iff funded clipped allocated, ← firstAmount_eq_total_iff]
      constructor
      · intro counts
        exact counts.perNeuron
      · intro all
        have totals : ((neurons receipt.shares).map fun neuron => (shareOf receipt neuron).toNat) =
            (neurons receipt.shares).map (neuronTotal receipt.shares) :=
          List.map_congr_left fun neuron _ => all neuron
        exact ⟨all, by rw [totals, neuronTotal_sum, allocateBudget_sum allocated]⟩

/-- A second claim of the same neuron, without a link. -/
def idleClaim : RewardClaim := { linkClaim 1 with id := Particle.padded [2], links := [] }

theorem idle_claim_unpaid :
    PaidOnce Tru.unit 1000 (shapley Hemera.truncating Tru.unit []
      (contributionsWithRho Tru.unit [linkClaim 1, idleClaim]) () () 1
      (quietArtifact sampleCrates 1 genesisPrev [linkClaim 1, idleClaim]).beacon) := by
  rw [(by decide +kernel : shapley Hemera.truncating Tru.unit []
      (contributionsWithRho Tru.unit [linkClaim 1, idleClaim]) () () 1
      (quietArtifact sampleCrates 1 genesisPrev [linkClaim 1, idleClaim]).beacon =
        [((linkClaim 1).neuron, Fx.one), ((linkClaim 1).neuron, 0)])]
  intro i j entry later before entryAt laterAt same
  have inside := (List.getElem?_eq_some_iff.mp laterAt).1
  obtain rfl : j = 1 := by
    simp only [List.length_cons, List.length_nil] at inside
    omega
  cases laterAt
  decide +kernel

/-- Of two claims of one neuron the second is unpaid. -/
theorem shareOf_countsAll_idle :
    ∃ receipt, settleEpoch sampleCrates 1 genesisPrev [] [linkClaim 1, idleClaim] () () 1 1000 =
        .ok receipt ∧
      (receipt.shares.map fun settled => (settled.neuron, settled.amount)) =
        [((linkClaim 1).neuron, 1000), ((linkClaim 1).neuron, 0)] ∧
      CountsAll receipt := by
  have read : ((settleEpoch sampleCrates 1 genesisPrev [] [linkClaim 1, idleClaim] () () 1
      1000).toOption.map fun receipt =>
        (receipt.shares.map fun settled => (settled.neuron, settled.amount), receipt.budget)) =
      some ([((linkClaim 1).neuron, 1000), ((linkClaim 1).neuron, 0)], 1000) := by
    decide +kernel
  cases settled : settleEpoch sampleCrates 1 genesisPrev [] [linkClaim 1, idleClaim] () () 1
      1000 with
  | error reason => simp [settled, Except.toOption] at read
  | ok receipt =>
  simp only [settled, Except.toOption, Option.map_some, Option.some.injEq, Prod.mk.injEq] at read
  obtain ⟨paid, budget⟩ := read
  obtain ⟨conserved, clipped, counts⟩ := shareOf_countsAll_iff (.epoch settled)
  cases clipped
  exact ⟨receipt, rfl, paid, counts.mpr (budget ▸ idle_claim_unpaid)⟩

/-- A second claim of the same neuron. -/
def secondClaim : RewardClaim := { linkClaim 1 with id := Particle.padded [2] }

/-- The neuron's second share takes the whole budget, and `share_of` says that
it is owed nothing. -/
theorem second_share_not_counted :
    ∃ receipt, settleEpoch sampleCrates 1 genesisPrev [] [linkClaim 1, secondClaim] () () 1 1000 =
        .ok receipt ∧
      shareOf receipt (linkClaim 1).neuron = 0 ∧
      neuronTotal receipt.shares (linkClaim 1).neuron = 1000 ∧ ¬ CountsAll receipt := by
  have read : ((settleEpoch sampleCrates 1 genesisPrev [] [linkClaim 1, secondClaim] () () 1
      1000).toOption.map fun receipt => (shareOf receipt (linkClaim 1).neuron,
        neuronTotal receipt.shares (linkClaim 1).neuron)) = some (0, 1000) := by
    decide +kernel
  cases settled : settleEpoch sampleCrates 1 genesisPrev [] [linkClaim 1, secondClaim] () () 1
      1000 with
  | error reason => simp [settled, Except.toOption] at read
  | ok receipt =>
  simp only [settled, Except.toOption, Option.map_some, Option.some.injEq, Prod.mk.injEq] at read
  obtain ⟨first, all⟩ := read
  refine ⟨receipt, rfl, first, all, fun counts => ?_⟩
  have own := counts.perNeuron (linkClaim 1).neuron
  rw [first, all] at own
  exact absurd own (by decide)

end Settled

end Foculus.Settlement

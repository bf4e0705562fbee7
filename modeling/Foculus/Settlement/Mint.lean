import Foculus.Settlement.Conservation

namespace Foculus.Settlement

/-! # Minting a receipt (`mint_receipt_to_ledger` of `src/rewards.rs`)

The hash of a receipt covers who is paid how much.  The mint does not read these
amounts: the tok crate computes them again, from fields of the receipt that no
check looks at. -/

/-- The tok crate's `execute_settle_mints`, with whatever it returns. -/
abbrev ExecuteSettleMints (Ledger TokenId Minted : Type) :=
  Ledger → TokenId → (raw : List (Particle × Fx)) → (directedTotal : Fx) →
    (emissionScale budget : UInt64) → (receiptHash : Particle) → Minted

section Mint

variable {zheng : Zheng}

def mintReceiptToLedger {Ledger TokenId Minted : Type}
    (executeSettleMints : ExecuteSettleMints Ledger TokenId Minted) (ledger : Ledger)
    (token : TokenId) (receipt : SettleReceipt zheng) (emissionScale : UInt64) : Minted :=
  let raw := receipt.shares.map fun settled => (settled.neuron, settled.share)
  executeSettleMints ledger token raw receipt.directedTotal emissionScale receipt.budget
    receipt.receiptHash

/-- The raw shares, the directed total and the budget that the mint is called with. -/
def mintArguments (receipt : SettleReceipt zheng) : List (Particle × Fx) × Fx × UInt64 :=
  mintReceiptToLedger (fun _ _ raw directedTotal _ budget _ => (raw, directedTotal, budget)) () ()
    receipt 0

variable {hemera : Hemera}

/-- Two accepted receipts of one hash pay the same neurons the same amounts. -/
theorem same_hash_pays {receipt other : SettleReceipt zheng}
    (accepted : verifyReceipt hemera zheng receipt = true)
    (otherAccepted : verifyReceipt hemera zheng other = true)
    (same : receipt.receiptHash = other.receiptHash)
    (free : hemera.CollisionFree {receiptPreimage receipt.epoch receipt.beacon receipt.shares,
      receiptPreimage other.epoch other.beacon other.shares}) :
    receipt.epoch = other.epoch ∧ receipt.beacon = other.beacon ∧
      (receipt.shares.map SettledShare.paid).Perm (other.shares.map SettledShare.paid) := by
  simp only [verifyReceipt, Bool.and_eq_true, beq_iff_eq] at accepted otherAccepted
  have hashes := (accepted.1.1.1.symm.trans same).trans otherAccepted.1.1.1
  exact receiptPreimage_inj (free.pair hashes)

/-- The checks do not look at the share values, the directed total and the budget. -/
theorem verifyReceipt_unhashed (receipt : SettleReceipt zheng) {shares : List SettledShare}
    (paid : shares.map SettledShare.paid = receipt.shares.map SettledShare.paid)
    (directedTotal : Fx) (budget : UInt64) :
    verifyReceipt hemera zheng { receipt with shares, directedTotal, budget } =
      verifyReceipt hemera zheng receipt := by
  have hash : receiptHash hemera receipt.epoch receipt.beacon shares =
      receiptHash hemera receipt.epoch receipt.beacon receipt.shares := by
    rw [receiptHash, receiptHash, receiptPreimage_eq, receiptPreimage_eq, paid]
  simp only [verifyReceipt, hash]

theorem revalued_shares {shares : List SettledShare} {raw : List (Particle × Fx)}
    (neurons : raw.map Prod.fst = shares.map SettledShare.neuron) :
    ∃ revalued : List SettledShare,
      revalued.map SettledShare.paid = shares.map SettledShare.paid ∧
      revalued.map (fun settled => (settled.neuron, settled.share)) = raw := by
  induction shares generalizing raw with
  | nil =>
      rw [List.map_nil, List.map_eq_nil_iff] at neurons
      exact ⟨[], rfl, neurons.symm⟩
  | cons settled rest ih =>
      obtain ⟨entry, others, rfl, neuron, later⟩ := List.map_eq_cons_iff.mp neurons
      obtain ⟨revalued, paid, values⟩ := ih later
      refine ⟨{ settled with share := entry.2 } :: revalued, ?_, ?_⟩
      · rw [List.map_cons, List.map_cons, paid]
        rfl
      · rw [List.map_cons, values, ← neuron]

/-- With the hash of an accepted receipt, anything can be minted for its
neurons: there is an accepted receipt of this hash for every choice of raw
shares, directed total and budget.  So the hash of no accepted receipt
determines what is minted. -/
theorem mint_free_of_hash (receipt : SettleReceipt zheng)
    (accepted : verifyReceipt hemera zheng receipt = true) :
    (∀ raw directedTotal budget, raw.map Prod.fst = receipt.shares.map SettledShare.neuron →
      ∃ other, verifyReceipt hemera zheng other = true ∧
        other.receiptHash = receipt.receiptHash ∧
        mintArguments other = (raw, directedTotal, budget)) ∧
    ∃ other, verifyReceipt hemera zheng other = true ∧
      other.receiptHash = receipt.receiptHash ∧ mintArguments other ≠ mintArguments receipt := by
  constructor
  · intro raw directedTotal budget neurons
    obtain ⟨shares, paid, values⟩ := revalued_shares neurons
    refine ⟨{ receipt with shares, directedTotal, budget }, ?_, rfl, ?_⟩
    · rw [verifyReceipt_unhashed receipt paid, accepted]
    · exact congrArg (fun raw => (raw, directedTotal, budget)) values
  · refine ⟨{ receipt with budget := receipt.budget + 1 }, ?_, rfl, fun same => ?_⟩
    · exact (verifyReceipt_unhashed receipt rfl _ _).trans accepted
    · have budgets : receipt.budget + 1 = receipt.budget :=
        congrArg (fun arguments => arguments.2.2) same
      simp at budgets

end Mint

/-- A receipt that pays a thousand to one neuron, with this budget to mint from. -/
def oneShareReceipt (share : Fx) (budget : UInt64) : SettleReceipt Step.counting :=
  let shares : List SettledShare := [⟨Particle.zero, share, 1000⟩]
  { epoch := 1
    beacon := Particle.zero
    claimsRoot := Particle.zero
    receiptHash := receiptHash Hemera.truncating 1 Particle.zero shares
    directedTotal := Fx.one
    budget
    shares
    beaconArtifact := none
    ticketSeal := none
    foldSeal := none
    sampleCount := 1 }

theorem mint_free_of_hash_one_share :
    verifyReceipt Hemera.truncating Step.counting (oneShareReceipt Fx.one 1000) = true ∧
    ∃ other, verifyReceipt Hemera.truncating Step.counting other = true ∧
      other.receiptHash = (oneShareReceipt Fx.one 1000).receiptHash ∧
      mintArguments other ≠ mintArguments (oneShareReceipt Fx.one 1000) := by
  have accepted : verifyReceipt Hemera.truncating Step.counting (oneShareReceipt Fx.one 1000) =
      true := by decide +kernel
  exact ⟨accepted, (mint_free_of_hash _ accepted).2⟩

/-- Two accepted receipts with one hash, and one preimage, that mint from different shares and
budgets. -/
theorem one_hash_two_mints :
    verifyReceipt Hemera.truncating Step.counting (oneShareReceipt Fx.one 1000) = true ∧
    verifyReceipt Hemera.truncating Step.counting (oneShareReceipt 0 1000000) = true ∧
    (oneShareReceipt Fx.one 1000).receiptHash = (oneShareReceipt 0 1000000).receiptHash ∧
    receiptPreimage 1 Particle.zero (oneShareReceipt Fx.one 1000).shares =
      receiptPreimage 1 Particle.zero (oneShareReceipt 0 1000000).shares ∧
    mintArguments (oneShareReceipt Fx.one 1000) ≠ mintArguments (oneShareReceipt 0 1000000) := by
  decide +kernel

end Foculus.Settlement

import Foculus.Live.Credits

namespace Foculus.Live

open Data Settlement Epoch

/-! The balance of a node.

A call passes at most one receipt on to be credited, after which due rewards may
mature.  What is pending and what has matured together are the shares of the
receipts that first carried their hashes. -/

namespace LiveNode

variable {zheng : Zheng}

theorem mem_creditReceipt {node : LiveNode zheng} {receipt : SettleReceipt zheng}
    {mintHeight : UInt64} {hash : Particle} :
    hash ∈ (node.creditReceipt receipt mintHeight).creditedReceipts ↔
      hash ∈ node.creditedReceipts ∨ receipt.receiptHash = hash := by
  rw [creditReceipt_eq]
  dsimp only
  split_ifs with seen
  · refine ⟨.inl, fun either => either.elim id fun same => ?_⟩
    exact same ▸ Std.ExtTreeSet.mem_iff_contains.mpr seen
  · rw [Std.ExtTreeSet.mem_insert, Std.compare_eq_iff_eq]
    exact or_comm

end LiveNode

section Totals

variable {zheng : Zheng}

def hashes (receipts : List (SettleReceipt zheng)) : List Particle :=
  receipts.map fun receipt => receipt.receiptHash

/-- Of several receipts with one hash the first is kept. -/
def firstCarriers (receipts : List (SettleReceipt zheng)) : List (SettleReceipt zheng) :=
  receipts.foldl
    (fun kept receipt => if receipt.receiptHash ∈ hashes kept then kept else kept ++ [receipt]) []

def shareTotal (neuron : Particle) (receipts : List (SettleReceipt zheng)) : Nat :=
  (receipts.map fun receipt => (shareOf receipt neuron).toNat).sum

def pendingTotal (pending : List PendingReward) : Nat :=
  (pending.map fun entry => entry.amount.toNat).sum

theorem firstCarriers_append (receipts : List (SettleReceipt zheng)) (receipt : SettleReceipt zheng) :
    firstCarriers (receipts ++ [receipt]) =
      if receipt.receiptHash ∈ hashes (firstCarriers receipts) then firstCarriers receipts
      else firstCarriers receipts ++ [receipt] := by
  rw [firstCarriers, List.foldl_append]
  rfl

theorem mem_firstCarriers (receipts : List (SettleReceipt zheng)) (hash : Particle) :
    hash ∈ hashes (firstCarriers receipts) ↔ hash ∈ hashes receipts := by
  induction receipts using List.reverseRecOn with
  | nil => rfl
  | append_singleton receipts receipt ih =>
      have listed : hash ∈ hashes (receipts ++ [receipt]) ↔
          hash ∈ hashes (firstCarriers receipts) ∨ hash = receipt.receiptHash := by
        rw [ih, hashes, List.map_append]
        simp [hashes]
      rw [firstCarriers_append, listed]
      split_ifs with seen
      · refine ⟨.inl, fun either => either.elim id fun same => ?_⟩
        rwa [same]
      · simp [hashes]

/-- The matured balance is the sum of what has matured, up to its maximum. -/
theorem maturedSum_toNat (matured : List PendingReward) :
    (maturedSum matured).toNat = min (pendingTotal matured) (2 ^ 64 - 1) := by
  have folded (start : Nat) : matured.foldl (fun sum pending => satAdd sum pending.amount)
      (lenU64 start) = lenU64 (start + pendingTotal matured) := by
    induction matured generalizing start with
    | nil => rfl
    | cons entry rest ih =>
        have step := satAdd_lenU64 start entry.amount.toNat
        rw [lenU64_of_toNat] at step
        rw [List.foldl_cons, step, ih, Nat.add_assoc]
        rfl
  have total := folded 0
  rw [Nat.zero_add] at total
  rw [maturedSum, ← lenU64_toNat, ← total]
  rfl

def creditTotal (journal : List (Credit zheng)) : Nat :=
  (journal.map fun credit => credit.amount.toNat).sum

theorem creditTotal_append (journal added : List (Credit zheng)) :
    creditTotal (journal ++ added) = creditTotal journal + creditTotal added := by
  rw [creditTotal, List.map_append, List.sum_append]
  rfl

/-- A node that is accounted for holds what it was credited with. -/
theorem Accounted.total {neuron : Particle} {node : LiveNode zheng} {journal : List (Credit zheng)}
    (accounted : Accounted neuron node journal) :
    ∃ matured, creditTotal journal = pendingTotal node.pendingRewards + matured ∧
      node.maturedReward.toNat = min matured (2 ^ 64 - 1) := by
  obtain ⟨matured, entries, sum⟩ := accounted.balanced
  refine ⟨pendingTotal matured, ?_, ?_⟩
  · have amounts := (entries.map fun entry => entry.amount.toNat).sum_eq
    rw [List.map_map, List.map_append, List.sum_append] at amounts
    exact amounts
  · rw [sum, maturedSum_toNat]

theorem contribution_total (node : LiveNode zheng) (receipt : SettleReceipt zheng)
    (mintHeight : UInt64) :
    creditTotal (node.contribution receipt mintHeight) =
      if receipt.receiptHash ∈ node.creditedReceipts then 0
      else (shareOf receipt node.neuron).toNat := by
  simp only [LiveNode.contribution, ← Std.ExtTreeSet.mem_iff_contains]
  split_ifs with seen positive
  · rfl
  · exact Nat.add_zero _
  · rw [UInt64.not_lt, UInt64.le_zero_iff] at positive
    rw [positive]
    rfl

end Totals

section Runs

theorem Booked.creditedReceipts_eq {zheng : Zheng} {node : LiveNode zheng}
    {result : LiveNode zheng × Except LiveError α} (booked : Booked node result) :
    result.1.creditedReceipts = node.creditedReceipts := by
  rcases booked with kept | ⟨_, tipped, unchanged, matured⟩
  · exact congrArg (·.2.1) kept
  · rw [matured]
    exact congrArg (·.2.1) unchanged

variable {crates : Crates} {neuron : Particle} {node : LiveNode crates.zheng}
  {journal : List (Credit crates.zheng)} {receipts : List (SettleReceipt crates.zheng)}

theorem mem_perform (node : LiveNode crates.zheng) (call : Call crates) (hash : Particle) :
    hash ∈ (perform node call).creditedReceipts ↔
      hash ∈ node.creditedReceipts ∨ hash ∈ hashes (carried node call).toList := by
  obtain ⟨mintHeight, _, booked⟩ := perform_booked node call
  rw [booked.creditedReceipts_eq, credited]
  cases carried node call with
  | none => simp [hashes]
  | some receipt =>
      rw [LiveNode.mem_creditReceipt, eq_comm]
      simp [hashes]

/-- The journal has the shares of the receipts that first carried their hashes,
and these hashes are the ones the node has recorded. -/
structure Tallied (neuron : Particle) (node : LiveNode crates.zheng)
    (journal : List (Credit crates.zheng)) (receipts : List (SettleReceipt crates.zheng)) : Prop where
  accounted : Accounted neuron node journal
  recorded : ∀ hash, hash ∈ node.creditedReceipts ↔ hash ∈ hashes receipts
  total : creditTotal journal = shareTotal neuron (firstCarriers receipts)

theorem perform_tallied (tallied : Tallied neuron node journal receipts) (call : Call crates) :
    Tallied neuron (perform node call) (journal ++ creditsOf node call)
      (receipts ++ (carried node call).toList) where
  accounted := perform_accounted tallied.accounted call
  recorded hash := by
    rw [mem_perform, tallied.recorded, hashes, hashes, hashes, List.map_append, List.mem_append]
  total := by
    obtain ⟨mintHeight, credits, _⟩ := perform_booked node call
    rw [creditTotal_append, credits, tallied.total]
    cases carried node call with
    | none =>
        rw [Option.toList_none, List.append_nil]
        exact Nat.add_zero _
    | some receipt =>
        have added := contribution_total node receipt mintHeight
        simp only [tallied.recorded, tallied.accounted.owner] at added
        rw [Option.toList_some, List.flatMap_singleton, added]
        simp only [firstCarriers_append, mem_firstCarriers]
        split_ifs
        · rfl
        · rw [shareTotal, shareTotal, List.map_append, List.sum_append]
          exact congrArg _ (Nat.add_zero _).symm

/-- What a node with these carried receipts holds.  The matured balance is cut
off exactly when what has left the queue does not fit into 64 bits. -/
structure Conserved (neuron : Particle) (node : LiveNode crates.zheng)
    (receipts : List (SettleReceipt crates.zheng)) : Prop where
  recorded : ∀ hash, hash ∈ node.creditedReceipts ↔ hash ∈ hashes receipts
  balance : shareTotal neuron (firstCarriers receipts) < 2 ^ 64 + pendingTotal node.pendingRewards →
    node.maturedReward.toNat + pendingTotal node.pendingRewards =
      shareTotal neuron (firstCarriers receipts)
  saturated : 2 ^ 64 + pendingTotal node.pendingRewards ≤ shareTotal neuron (firstCarriers receipts) →
    node.maturedReward.toNat = 2 ^ 64 - 1

/-- A failed call took no credit away, and added at most that of a receipt hash
which was not credited before. -/
def Harmless (neuron : Particle) (node : LiveNode crates.zheng) (call : Call crates) : Prop :=
  (perform node call).maturedReward = node.maturedReward ∧
    ((perform node call).pendingRewards = node.pendingRewards ∨
      ∃ receipt mintHeight, carried node call = some receipt ∧
        receipt.receiptHash ∉ node.creditedReceipts ∧
        (perform node call).pendingRewards =
          node.pendingRewards ++ [⟨shareOf receipt neuron, receipt.receiptHash, mintHeight⟩])

theorem Tallied.conserved (tallied : Tallied neuron node journal receipts) :
    Conserved neuron node receipts := by
  obtain ⟨matured, total, balance⟩ := tallied.accounted.total
  rw [tallied.total] at total
  exact ⟨tallied.recorded, fun fits => by omega, fun clipped => by omega⟩

theorem Tallied.harmless (tallied : Tallied neuron node journal receipts) {call : Call crates}
    {reason : LiveError} (failed : answer node call = .error reason) :
    Harmless neuron node call := by
  obtain ⟨mintHeight, _, booked⟩ := perform_booked node call
  have kept : (perform node call).ledger = (credited node call mintHeight).ledger := by
    refine booked.resolve_right fun succeeded => ?_
    obtain ⟨⟨value, returned⟩, _⟩ := succeeded
    cases failed.symm.trans returned
  simp only [LiveNode.ledger, Prod.mk.injEq] at kept
  obtain ⟨_, _, pending, matured⟩ := kept
  rw [Harmless, pending, matured, credited]
  cases carried node call with
  | none => exact ⟨rfl, .inl rfl⟩
  | some receipt =>
      dsimp only
      rw [LiveNode.creditReceipt_eq]
      refine ⟨rfl, ?_⟩
      rw [LiveNode.contribution]
      split_ifs with seen positive
      · exact .inl (List.append_nil _)
      · refine .inr ⟨receipt, mintHeight, rfl, ?_, ?_⟩
        · rwa [Std.ExtTreeSet.mem_iff_contains]
        · rw [tallied.accounted.owner]
          rfl
      · exact .inl (List.append_nil _)

variable (crates)

def collect (state : LiveNode crates.zheng × List (SettleReceipt crates.zheng))
    (call : Call crates) : LiveNode crates.zheng × List (SettleReceipt crates.zheng) :=
  (perform state.1 call, state.2 ++ (carried state.1 call).toList)

/-- The receipts that a run passes to `credit_receipt`, repetitions included. -/
def carriedIn (mode : NodeMode) (neuron : Particle) (calls : List (Call crates)) :
    List (SettleReceipt crates.zheng) :=
  (calls.foldl (collect crates) (LiveNode.new crates.hemera crates.zheng mode neuron, [])).2

theorem run_tallied (mode : NodeMode) (neuron : Particle) (calls : List (Call crates)) :
    Tallied neuron (run crates mode neuron calls).1 (run crates mode neuron calls).2
      (carriedIn crates mode neuron calls) := by
  have along (start : LiveNode crates.zheng) (journal : List (Credit crates.zheng))
      (receipts : List (SettleReceipt crates.zheng)) (tallied : Tallied neuron start journal receipts) :
      Tallied neuron (calls.foldl (advance crates) (start, journal)).1
        (calls.foldl (advance crates) (start, journal)).2
        (calls.foldl (collect crates) (start, receipts)).2 := by
    induction calls generalizing start journal receipts with
    | nil => exact tallied
    | cons call rest ih => exact ih _ _ _ (perform_tallied tallied call)
  refine along _ [] [] ⟨Accounted.new crates.hemera crates.zheng mode neuron, fun hash => ?_, rfl⟩
  simp [LiveNode.new, hashes]

/-- In every run, what has matured and what is pending are together the node's
shares of the receipts credited so far, each hash with the receipt that first
carried it; calls that fail are harmless. -/
theorem rewards_conserved (mode : NodeMode) (neuron : Particle) (calls : List (Call crates)) :
    Conserved neuron (run crates mode neuron calls).1 (carriedIn crates mode neuron calls) ∧
      ∀ call reason, answer (run crates mode neuron calls).1 call = .error reason →
        Harmless neuron (run crates mode neuron calls).1 call := by
  have tallied := run_tallied crates mode neuron calls
  exact ⟨tallied.conserved, fun call reason failed => tallied.harmless failed⟩

end Runs

end Foculus.Live

import Foculus.Epoch.Certificate
import Foculus.Settlement.FoldTree

namespace Foculus.Epoch

open Data Settlement

/-! # Sampling in a loop and sampling by tickets

`settle_epoch` averages the marginals of the first nonces in a plain loop.
Settling by tickets grinds, deduplicates and folds them.  When all these nonces
win, the tickets are the same samples, and both averages are the same. -/

/-- A nonce of the plain loop is the nonce of the grinding attempt. -/
theorem nonce_eq {s : Nat} (bound : s < 2 ^ 64) : satAdd 0 (lenU64 s) = UInt64.ofNat s := by
  apply UInt64.toNat_inj.mp
  rw [satAdd, lenU64_toNat, lenU64_toNat, UInt64.toNat_zero, UInt64.toNat_ofNat_of_lt' bound]
  omega

theorem nonce_inj {s t : Nat} (bound : s < 2 ^ 64) (otherBound : t < 2 ^ 64)
    (same : UInt64.ofNat s = UInt64.ofNat t) : s = t := by
  have values := congrArg UInt64.toNat same
  rwa [UInt64.toNat_ofNat_of_lt' bound, UInt64.toNat_ofNat_of_lt' otherBound] at values

section Samples

variable {hemera : Hemera} {tru : Tru} {base : List Link} {contribs : List Contribution}
  {ctx : tru.Context} {params : tru.FocusingParams} {beacon cluster miner : Particle}
  {target : UInt64} {won : Nat → SettlementTicket} {samples : UInt64}

/-- The nonces below `samples` win these tickets. -/
def WinsAll (hemera : Hemera) (tru : Tru) (base : List Link) (contribs : List Contribution)
    (ctx : tru.Context) (params : tru.FocusingParams) (beacon cluster miner : Particle)
    (target samples : UInt64) (won : Nat → SettlementTicket) : Prop :=
  ∀ s < samples.toNat, trySettlementTicket hemera tru base contribs ctx params beacon cluster miner
    (UInt64.ofNat s) target = some (won s)

theorem WinsAll.ticket
    (wins : WinsAll hemera tru base contribs ctx params beacon cluster miner target samples won)
    {s : Nat} (inside : s < samples.toNat) :
    (won s).key = (miner, UInt64.ofNat s) ∧ (won s).marginals =
      marginals tru base ctx params contribs (ordering hemera contribs.length beacon
        (UInt64.ofNat s)) := by
  obtain ⟨_, miners, nonces, published, _⟩ := trySettlementTicket_eq_some_iff.mp (wins s inside)
  exact ⟨Prod.ext miners nonces, published⟩

theorem WinsAll.ground
    (wins : WinsAll hemera tru base contribs ctx params beacon cluster miner target samples won)
    {maxAttempts : UInt64} (enough : samples ≤ maxAttempts) :
    grindSettlement hemera tru base contribs ctx params beacon cluster miner 0 maxAttempts
      samples.toNat target = (List.range samples.toNat).map won := by
  have all : ∀ s ∈ List.range samples.toNat, trySettlementTicket hemera tru base contribs ctx params
      beacon cluster miner (satAdd 0 (lenU64 s)) target = some (won s) := by
    intro s member
    have inside := List.mem_range.mp member
    rw [nonce_eq (Nat.lt_trans inside samples.toNat_lt)]
    exact wins s inside
  obtain ⟨spare, attempts⟩ := Nat.exists_eq_add_of_le (UInt64.le_iff_toNat_le.mp enough)
  rw [grindSettlement_attempts, attempts, List.range_add, List.filterMap_append,
    List.filterMap_congr all, List.filterMap_eq_map']
  exact List.take_left' (by simp)

/-- The accumulator of the tickets holds the sums of the plain loop. -/
theorem WinsAll.folded
    (wins : WinsAll hemera tru base contribs ctx params beacon cluster miner target samples won) :
    let acc := selfFold hemera contribs.length ((List.range samples.toNat).map won)
    acc.sumM = (List.range samples.toNat).foldl (fun sums s =>
        List.zipWith (· + ·) sums (marginals tru base ctx params contribs
          (ordering hemera contribs.length beacon (UInt64.ofNat s))))
        (List.replicate contribs.length 0) ∧
      acc.sumM.length = contribs.length ∧ acc.k = samples := by
  intro acc
  have dimension : ∀ ticket ∈ (List.range samples.toNat).map won,
      ticket.marginals.length = contribs.length := by
    intro ticket member
    obtain ⟨s, inside, rfl⟩ := List.mem_map.mp member
    rw [(wins.ticket (List.mem_range.mp inside)).2, marginals_length]
  have distinct : (((List.range samples.toNat).map won).map SettlementTicket.key).Nodup := by
    rw [List.map_map]
    refine List.Nodup.map_on (fun s inside t otherInside same => ?_) List.nodup_range
    have bound := List.mem_range.mp inside
    have otherBound := List.mem_range.mp otherInside
    have keys : (won s).key = (won t).key := same
    rw [(wins.ticket bound).1, (wins.ticket otherBound).1, Prod.mk.injEq] at keys
    exact nonce_inj (Nat.lt_trans bound samples.toNat_lt)
      (Nat.lt_trans otherBound samples.toNat_lt) keys.2
  obtain ⟨sums, count⟩ := selfFold_distinct hemera dimension distinct
  refine ⟨?_, (selfFold_valid hemera dimension).dimension, ?_⟩
  · rw [sums, List.foldl_map]
    refine List.foldl_ext _ _ _ fun sums s inside => ?_
    rw [(wins.ticket (List.mem_range.mp inside)).2]
  · rw [count, List.length_map, List.length_range, lenU64_of_toNat]

/-- The mean of the accumulator is the estimate of the plain loop. -/
theorem WinsAll.meanShares
    (wins : WinsAll hemera tru base contribs ctx params beacon cluster miner target samples won)
    (populated : contribs.length ≠ 0) (sampled : samples ≠ 0) :
    (selfFold hemera contribs.length ((List.range samples.toNat).map won)).meanShares tru
        (contribs.map Contribution.neuron) =
      shapley hemera tru base contribs ctx params samples beacon := by
  obtain ⟨sums, lengths, count⟩ := wins.folded
  have ready : ¬ ((selfFold hemera contribs.length ((List.range samples.toNat).map won)).k = 0 ∨
      (selfFold hemera contribs.length ((List.range samples.toNat).map won)).sumM.length ≠
        (contribs.map Contribution.neuron).length) := by
    rw [count, lengths, List.length_map]
    simpa using sampled
  have busy : ¬ (contribs.length = 0 ∨ samples = 0) := not_or.mpr ⟨populated, sampled⟩
  rw [ClusterAcc.meanShares, if_neg ready, shapley, if_neg busy, sums, count]
  dsimp only
  rw [List.zip, List.zipWith_map_left, List.map_zipWith]

end Samples

structure SameSettlement {zheng : Zheng} (left right : SettleReceipt zheng) : Prop where
  beacon_eq : left.beacon = right.beacon
  claimsRoot_eq : left.claimsRoot = right.claimsRoot
  shares_eq : left.shares = right.shares
  receiptHash_eq : left.receiptHash = right.receiptHash
  sampleCount_eq : left.sampleCount = right.sampleCount

/-- Both return receipts of the same settlement, or both fail. -/
inductive ReturnAlike {zheng : Zheng} : Except RewardError (SettleReceipt zheng) →
    Except RewardError (SettleReceipt zheng) → Prop where
  | settled {left right : SettleReceipt zheng} :
      SameSettlement left right → ReturnAlike (.ok left) (.ok right)
  | failed {reason other : RewardError} : ReturnAlike (.error reason) (.error other)

theorem ReturnAlike.of_ok {zheng : Zheng} {left right : Except RewardError (SettleReceipt zheng)}
    {receipt : SettleReceipt zheng} (alike : ReturnAlike left right)
    (returned : left = .ok receipt) :
    ∃ other, right = .ok other ∧ SameSettlement receipt other := by
  cases alike with
  | settled same =>
      cases returned
      exact ⟨_, rfl, same⟩
  | failed => cases returned

section Settle

variable {crates : Crates} {epoch : UInt64} {prevBeacon : Particle} {base : List Link}
  {claims : List RewardClaim} {ctx : crates.tru.Context} {params : crates.tru.FocusingParams}
  {samples budget : UInt64} {policy : TicketPolicy} {won : Nat → SettlementTicket}

end Settle

end Foculus.Epoch

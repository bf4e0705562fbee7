import Foculus.Epoch.Substitutes

namespace Foculus.Epoch

open Data Settlement

/-! # What the order in which claims arrive decides -/

/-- If both runs settle: the same total for every neuron, and one receipt hash. -/
def SamePayout {zheng : Zheng} (left right : Except EpochError (EpochRunner zheng)) : Prop :=
  ∀ leftRunner rightRunner leftReceipt rightReceipt,
    left = .ok leftRunner → leftRunner.receipt = some leftReceipt →
    right = .ok rightRunner → rightRunner.receipt = some rightReceipt →
    (∀ neuron, totalOf neuron leftReceipt.shares = totalOf neuron rightReceipt.shares) ∧
      leftReceipt.receiptHash = rightReceipt.receiptHash

theorem samePayout_refl {zheng : Zheng} (run : Except EpochError (EpochRunner zheng)) :
    SamePayout run run := by
  intro leftRunner rightRunner leftReceipt rightReceipt left leftIssued right rightIssued
  cases left.symm.trans right
  cases leftIssued.symm.trans rightIssued
  exact ⟨fun _ => rfl, rfl⟩

theorem claims_eq_of_ids {left right : List RewardClaim}
    (distinct : (left.map RewardClaim.id).Nodup) (permuted : left.Perm right)
    (sameIds : left.map RewardClaim.id = right.map RewardClaim.id) : left = right := by
  have determined := List.inj_on_of_nodup_map distinct
  have lengths := permuted.length_eq
  apply List.ext_getElem lengths
  intro i leftBound rightBound
  have ids : left[i].id = right[i].id := by
    have entry := congrArg (·[i]?) sameIds
    simpa [List.getElem?_map, leftBound, rightBound] using entry
  exact determined (List.getElem_mem leftBound)
    (permuted.mem_iff.mpr (List.getElem_mem rightBound)) ids

/-- Two arrival orders of one set of claims always give the same claims root and
beacon.  They give the same payouts, whatever the claims, the epoch and the
crates that value and clip them, only when they are the same order. -/
theorem payouts_agree_iff_same_order {arrival other : List Particle} (distinct : arrival.Nodup)
    (permuted : arrival.Perm other) :
    (∀ (crates : Crates) (window : Window crates) (left right : List RewardClaim),
      left.map RewardClaim.id = arrival → right.map RewardClaim.id = other → left.Perm right →
      (window.opened left).map (fun runner => (runner.claimsRoot, runner.beacon)) =
        (window.opened right).map fun runner => (runner.claimsRoot, runner.beacon)) ∧
    ∀ (hemera : Hemera) (zheng : Zheng), EasyTargetWins hemera → Step.Complete zheng →
      ((∀ (tru : Tru) (tok : Tok) (window : Window ⟨hemera, tru, tok, zheng⟩)
          (left right : List RewardClaim),
          left.map RewardClaim.id = arrival → right.map RewardClaim.id = other → left.Perm right →
          SamePayout (window.settled left) (window.settled right)) ↔
        arrival = other) := by
  refine ⟨fun _ window _ _ _ _ sameClaims => window.opened_perm sameClaims, ?_⟩
  intro hemera zheng wins complete
  constructor
  · intro agree
    by_contra reordered
    obtain ⟨claimOf, left, right, leftReceipt, rightReceipt, neuron, named, leftSettles,
      rightSettles, leftIssued, rightIssued, apart⟩ :=
      orders_diverge wins complete distinct permuted reordered
    have ids (order : List Particle) : (order.map claimOf).map RewardClaim.id = order := by
      rw [List.map_map]
      exact List.map_id'' named order
    have payout := agree Tru.unit Tok.unclipped (substituteWindow hemera zheng)
      (arrival.map claimOf) (other.map claimOf) (ids arrival) (ids other) (permuted.map claimOf)
    exact apart ((payout left right leftReceipt rightReceipt leftSettles leftIssued rightSettles
      rightIssued).1 neuron)
  · rintro rfl tru tok window left right leftIds rightIds sameClaims
    cases claims_eq_of_ids (leftIds ▸ distinct) sameClaims (leftIds.trans rightIds.symm)
    exact samePayout_refl _

def zeroLed : Hemera where
  hash bytes := Particle.padded (0 :: bytes.reverse)
  toHex := hexText

theorem score_lt_easyTarget {digest : Particle} {rest : List UInt8}
    (led : digest.toList = 0 :: rest) : scoreU64 digest < easyTarget := by
  have bytes : (digest.toList.take 8).reverse = (rest.take 7).reverse ++ [0] := by
    rw [led, List.take_succ_cons, List.reverse_cons]
  have small : ofLeBytes (digest.toList.take 8).reverse < 256 ^ 7 := by
    have bound := ofLeBytes_lt (rest.take 7).reverse
    have width : (rest.take 7).reverse.length ≤ 7 := by simp
    rw [bytes, ofLeBytes_append]
    simp only [ofLeBytes, UInt8.toNat_zero, Nat.mul_zero, Nat.add_zero]
    exact Nat.lt_of_lt_of_le bound (Nat.pow_le_pow_right (by decide) width)
  have target : easyTarget.toNat = 2 ^ 64 - 1 := by decide
  rw [UInt64.lt_iff_toNat_lt, scoreU64, target,
    UInt64.toNat_ofNat_of_lt' (Nat.lt_trans small (by decide))]
  exact Nat.lt_trans small (by decide)

theorem zeroLed_wins : EasyTargetWins zeroLed := by
  have led (bytes : List UInt8) : ∃ rest, (Particle.padded (0 :: bytes)).toList = 0 :: rest := by
    rw [Particle.padded, Vector.toList_ofFn, List.ofFn_succ]
    exact ⟨_, rfl⟩
  intro beacon cluster nonce miner commitment
  exact score_lt_easyTarget (led _).choose_spec

theorem payouts_agree_iff_same_order_two_claims :
    ([Particle.padded [1], Particle.padded [2]].Nodup ∧
      [Particle.padded [1], Particle.padded [2]].Perm [Particle.padded [2], Particle.padded [1]]) ∧
    ¬ ∀ (tru : Tru) (tok : Tok) (window : Window ⟨zeroLed, tru, tok, Step.counting⟩)
        (left right : List RewardClaim),
        left.map RewardClaim.id = [Particle.padded [1], Particle.padded [2]] →
        right.map RewardClaim.id = [Particle.padded [2], Particle.padded [1]] → left.Perm right →
        SamePayout (window.settled left) (window.settled right) := by
  have distinct : [Particle.padded [1], Particle.padded [2]].Nodup := by decide +kernel
  have permuted : [Particle.padded [1], Particle.padded [2]].Perm
      [Particle.padded [2], Particle.padded [1]] := .swap _ _ _
  refine ⟨⟨distinct, permuted⟩, ?_⟩
  rw [(payouts_agree_iff_same_order distinct permuted).2 zeroLed Step.counting zeroLed_wins
    Step.counting_complete]
  decide +kernel

def paidTo {zheng : Zheng} (neuron : Particle) : Except EpochError (EpochRunner zheng) → Option Nat
  | .ok runner => runner.receipt.map fun receipt => totalOf neuron receipt.shares
  | .error _ => none

theorem SamePayout.paidTo_eq {zheng : Zheng} {left right : Except EpochError (EpochRunner zheng)}
    (same : SamePayout left right) {neuron : Particle} {paid otherPaid : Nat}
    (leftPaid : paidTo neuron left = some paid) (rightPaid : paidTo neuron right = some otherPaid) :
    paid = otherPaid := by
  cases left with
  | error reason => cases leftPaid
  | ok leftRunner =>
      cases right with
      | error reason => cases rightPaid
      | ok rightRunner =>
          obtain ⟨leftReceipt, leftIssued, rfl⟩ := Option.map_eq_some_iff.mp leftPaid
          obtain ⟨rightReceipt, rightIssued, rfl⟩ := Option.map_eq_some_iff.mp rightPaid
          exact (same leftRunner rightRunner leftReceipt rightReceipt rfl leftIssued rfl
            rightIssued).1 neuron

def twin (name : UInt8) : RewardClaim :=
  substitute (Particle.padded [1]) (Particle.padded [2]) (Particle.padded [name])

/-- Two claims that exchange their places exchange the budget. -/
theorem swapped_claims_swap_payout :
    ([twin 1, twin 2].map RewardClaim.id).Nodup ∧ [twin 1, twin 2].Perm [twin 2, twin 1] ∧
    ¬ SamePayout ((substituteWindow Hemera.truncating Step.counting).settled [twin 1, twin 2])
      ((substituteWindow Hemera.truncating Step.counting).settled [twin 2, twin 1]) := by
  refine ⟨by decide +kernel, .swap _ _ _, fun same => ?_⟩
  have left : paidTo (Particle.padded [2]) ((substituteWindow Hemera.truncating
      Step.counting).settled [twin 1, twin 2]) = some 1000 := by decide +kernel
  have right : paidTo (Particle.padded [2]) ((substituteWindow Hemera.truncating
      Step.counting).settled [twin 2, twin 1]) = some 0 := by decide +kernel
  exact absurd (same.paidTo_eq left right) (by decide)

end Foculus.Epoch

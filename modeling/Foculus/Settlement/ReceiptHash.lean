import Foculus.Data.StableSort
import Foculus.Settlement.Mint

namespace Foculus.Settlement

open Data

/-! # What a receipt hash says of the order of the shares

`receipt_hash` sorts the shares by neuron, with a stable sort, and its document
speaks of sorted pairs of neuron and amount.  The amounts of one neuron are
hashed in the order in which the shares list them, so of two lists that pay the
same the hashes are equal when every neuron's amounts stand in the same order. -/

/-- The amounts of the shares of one neuron, in their order. -/
def amountsOf (neuron : Particle) (shares : List SettledShare) : List UInt64 :=
  (shares.filter fun settled => settled.neuron = neuron).map SettledShare.amount

theorem atKey_paid (neuron : Particle) (shares : List SettledShare) :
    atKey Prod.fst neuron (shares.map SettledShare.paid) =
      (amountsOf neuron shares).map fun amount => (neuron, amount) := by
  induction shares with
  | nil => rfl
  | cons settled rest ih =>
      rw [List.map_cons, atKey_cons, ih]
      by_cases paidTo : settled.neuron = neuron
      · subst paidTo
        simp [SettledShare.paid, amountsOf]
      · simp [SettledShare.paid, amountsOf, paidTo]

theorem amountsOf_eq_iff {neuron : Particle} {shares others : List SettledShare} :
    atKey Prod.fst neuron (shares.map SettledShare.paid) =
        atKey Prod.fst neuron (others.map SettledShare.paid) ↔
      amountsOf neuron shares = amountsOf neuron others := by
  rw [atKey_paid, atKey_paid]
  exact (List.map_injective_iff.mpr (Prod.mk_right_injective neuron)).eq_iff

section Order

variable {epoch otherEpoch : UInt64} {beacon otherBeacon : Particle}
  {shares others : List SettledShare}

theorem receiptPreimage_eq_iff :
    receiptPreimage epoch beacon shares = receiptPreimage otherEpoch otherBeacon others ↔
      epoch = otherEpoch ∧ beacon = otherBeacon ∧
        ∀ neuron, amountsOf neuron shares = amountsOf neuron others := by
  simp only [← amountsOf_eq_iff, ← sortByKey_eq_iff]
  constructor
  · intro same
    obtain ⟨epochs, beacons, permuted⟩ := receiptPreimage_inj same
    subst epochs beacons
    rw [receiptPreimage_eq, receiptPreimage_eq, List.append_cancel_left_eq] at same
    refine ⟨rfl, rfl, paid_fixedWidth.flatMap_inj ?_ same⟩
    rw [(sortByKey_perm _ _).length_eq, (sortByKey_perm _ _).length_eq, permuted.length_eq]
  · rintro ⟨rfl, rfl, sorted⟩
    rw [receiptPreimage_eq, receiptPreimage_eq]
    exact congrArg _ (congrArg _ sorted)

theorem paid_perm_of_amountsOf
    (same : ∀ neuron, amountsOf neuron shares = amountsOf neuron others) :
    (shares.map SettledShare.paid).Perm (others.map SettledShare.paid) := by
  simp only [← amountsOf_eq_iff, ← sortByKey_eq_iff] at same
  have sorted := sortByKey_perm Prod.fst (others.map SettledShare.paid)
  rw [← same] at sorted
  exact (sortByKey_perm Prod.fst (shares.map SettledShare.paid)).symm.trans sorted

end Order

/-- Equal hashes mean equal payments; equal payments mean equal hashes unless
some neuron is paid the same amounts in another order. -/
theorem receipt_hash_is_of_payments (hemera : Hemera) (epoch otherEpoch : UInt64)
    (beacon otherBeacon : Particle) (shares others : List SettledShare)
    (free : hemera.CollisionFree
      {receiptPreimage epoch beacon shares, receiptPreimage otherEpoch otherBeacon others}) :
    (receiptHash hemera epoch beacon shares = receiptHash hemera otherEpoch otherBeacon others ↔
      epoch = otherEpoch ∧ beacon = otherBeacon ∧
        (shares.map SettledShare.paid).Perm (others.map SettledShare.paid)) ↔
      ¬ (epoch = otherEpoch ∧ beacon = otherBeacon ∧
        (shares.map SettledShare.paid).Perm (others.map SettledShare.paid) ∧
        ∃ neuron, amountsOf neuron shares ≠ amountsOf neuron others) := by
  have hashes : receiptHash hemera epoch beacon shares =
        receiptHash hemera otherEpoch otherBeacon others ↔
      epoch = otherEpoch ∧ beacon = otherBeacon ∧
        ∀ neuron, amountsOf neuron shares = amountsOf neuron others := by
    rw [← receiptPreimage_eq_iff]
    exact ⟨free.pair, congrArg hemera.hash⟩
  rw [hashes]
  constructor
  · rintro exact ⟨epochs, beacons, permuted, neuron, reordered⟩
    exact reordered ((exact.mpr ⟨epochs, beacons, permuted⟩).2.2 neuron)
  · intro ordered
    constructor
    · rintro ⟨epochs, beacons, same⟩
      exact ⟨epochs, beacons, paid_perm_of_amountsOf same⟩
    · rintro ⟨epochs, beacons, permuted⟩
      refine ⟨epochs, beacons, fun neuron => ?_⟩
      by_contra reordered
      exact ordered ⟨epochs, beacons, permuted, neuron, reordered⟩

def sharesOf (first second : UInt8) (firstAmount secondAmount : UInt64) : List SettledShare :=
  [⟨Particle.padded [first], Fx.one, firstAmount⟩, ⟨Particle.padded [second], Fx.one, secondAmount⟩]

/-- Shares of two neurons hash alike in both orders. -/
theorem receipt_hash_is_of_payments_two_neurons :
    receiptHash Hemera.truncating 1 Particle.zero (sharesOf 1 2 10 20) =
      receiptHash Hemera.truncating 1 Particle.zero (sharesOf 2 1 20 10) := by
  have ordered : ∀ neuron, amountsOf neuron (sharesOf 1 2 10 20) =
      amountsOf neuron (sharesOf 2 1 20 10) := by
    intro neuron
    have neurons : Particle.padded [1] ≠ Particle.padded [2] := by decide
    simp only [amountsOf, sharesOf, List.filter_cons, List.filter_nil, decide_eq_true_eq]
    by_cases first : Particle.padded [1] = neuron
    · have second : Particle.padded [2] ≠ neuron := first ▸ neurons.symm
      rw [if_pos first, if_neg second, if_neg second, if_pos first]
    · rw [if_neg first, if_neg first]
  have preimages : receiptPreimage 1 Particle.zero (sharesOf 1 2 10 20) =
      receiptPreimage 1 Particle.zero (sharesOf 2 1 20 10) :=
    receiptPreimage_eq_iff.mpr ⟨rfl, rfl, ordered⟩
  refine ((receipt_hash_is_of_payments Hemera.truncating 1 1 Particle.zero Particle.zero
    (sharesOf 1 2 10 20) (sharesOf 2 1 20 10) (Hemera.collisionFree_of_eq preimages)).mpr ?_).mpr
      ⟨rfl, rfl, List.Perm.swap _ _ []⟩
  rintro ⟨_, _, _, neuron, reordered⟩
  exact reordered (ordered neuron)

/-- Two shares of one neuron, in both orders: the payments are the same and the
hashes are not. -/
theorem reordered_shares_hash_apart :
    ((sharesOf 1 1 10 20).map SettledShare.paid).Perm ((sharesOf 1 1 20 10).map SettledShare.paid) ∧
    Hemera.truncating.CollisionFree {receiptPreimage 1 Particle.zero (sharesOf 1 1 10 20),
      receiptPreimage 1 Particle.zero (sharesOf 1 1 20 10)} ∧
    receiptHash Hemera.truncating 1 Particle.zero (sharesOf 1 1 10 20) ≠
      receiptHash Hemera.truncating 1 Particle.zero (sharesOf 1 1 20 10) := by
  have sorted : ∀ first second,
      sortByNeuron (sharesOf 1 1 first second) = sharesOf 1 1 first second := by
    intro first second
    refine List.Pairwise.insertionSort_eq (List.pairwise_pair.mpr ?_)
    exact Std.le_refl (Particle.padded [1])
  have apart : receiptHash Hemera.truncating 1 Particle.zero (sharesOf 1 1 10 20) ≠
      receiptHash Hemera.truncating 1 Particle.zero (sharesOf 1 1 20 10) := by
    rw [receiptHash, receiptHash, receiptPreimage, receiptPreimage, sorted, sorted]
    decide +kernel
  exact ⟨List.Perm.swap _ _ [], Hemera.collisionFree_of_apart apart, apart⟩

end Foculus.Settlement

import Foculus.Data.Proportional
import Foculus.Settlement.Rewards
import Mathlib.Algebra.Order.BigOperators.Group.List

namespace Foculus.Settlement

open Data

/-! The budget is paid out exactly.

The split loop never allocates more than the shares seen so far are worth, so
the amounts add up to at most the budget; what the rounding leaves over goes to
a share of positive weight, of which there is one. -/

def amounts (shares : List SettledShare) : List Nat :=
  shares.map fun settled => settled.amount.toNat

@[simp] theorem amounts_nil : amounts [] = [] := rfl

@[simp] theorem amounts_cons (settled : SettledShare) (rest : List SettledShare) :
    amounts (settled :: rest) = settled.amount.toNat :: amounts rest := rfl

theorem amount_sum_toNat {shares : List SettledShare} (bound : (amounts shares).sum < 2 ^ 64) :
    (shares.map SettledShare.amount).sum.toNat = (amounts shares).sum := by
  induction shares with
  | nil => rfl
  | cons settled rest ih =>
      rw [amounts_cons, List.sum_cons] at bound
      rw [List.map_cons, List.sum_cons, amounts_cons, List.sum_cons, UInt64.toNat_add,
        ih (by omega), Nat.mod_eq_of_lt bound]

section Split

variable {tru : Tru} {budget : UInt64} {sumW : Nat}

/-- A settled share is that of its entry, and pays nothing without weight. -/
structure Pays (tru : Tru) (entry : Particle × Fx) (settled : SettledShare) : Prop where
  neuron_eq : settled.neuron = entry.1
  share_eq : settled.share = entry.2
  weightless : fxWeight tru settled.share = 0 → settled.amount = 0

theorem Pays.exists_entry {conserved : List (Particle × Fx)} {shares : List SettledShare}
    (kept : List.Forall₂ (Pays tru) conserved shares) {settled : SettledShare}
    (member : settled ∈ shares) : ∃ entry ∈ conserved, Pays tru entry settled := by
  induction kept with
  | nil => cases member
  | cons here _ ih =>
      rcases List.mem_cons.mp member with rfl | later
      · exact ⟨_, List.mem_cons_self, here⟩
      · obtain ⟨entry, inside, pays⟩ := ih later
        exact ⟨entry, List.mem_cons_of_mem _ inside, pays⟩

def part (budget : UInt64) (sumW weight : Nat) : UInt64 :=
  UInt64.ofNat (weight * budget.toNat / sumW)

theorem splitBudget_last (neuron : Particle) (share : Fx) (allocated : UInt64) :
    splitBudget tru budget sumW [(neuron, share)] allocated =
      [⟨neuron, share, if fxWeight tru share = 0 then 0 else satSub budget allocated⟩] := rfl

theorem splitBudget_cons (neuron : Particle) (share : Fx) {rest : List (Particle × Fx)}
    (more : rest ≠ []) (allocated : UInt64) :
    splitBudget tru budget sumW ((neuron, share) :: rest) allocated =
      ⟨neuron, share, if fxWeight tru share = 0 then 0 else part budget sumW (fxWeight tru share)⟩ ::
        splitBudget tru budget sumW rest
          (satAdd allocated (part budget sumW (fxWeight tru share))) := by
  rw [splitBudget, if_neg (by simpa using more)]
  rfl

theorem splitBudget_pays (tru : Tru) (budget : UInt64) (sumW : Nat)
    (conserved : List (Particle × Fx)) (allocated : UInt64) :
    List.Forall₂ (Pays tru) conserved (splitBudget tru budget sumW conserved allocated) := by
  induction conserved generalizing allocated with
  | nil => exact .nil
  | cons entry rest ih =>
      obtain ⟨neuron, share⟩ := entry
      by_cases last : rest = []
      · subst last
        rw [splitBudget_last]
        exact .cons ⟨rfl, rfl, fun weightless => if_pos weightless⟩ .nil
      · rw [splitBudget_cons neuron share last]
        exact .cons ⟨rfl, rfl, fun weightless => if_pos weightless⟩ (ih _)

/-- The loop invariant: what is allocated and what is still to be split is worth
no more than the budget. -/
def Covered (budget : UInt64) (sumW : Nat) (allocated : UInt64) (weights : List Nat) : Prop :=
  allocated.toNat * sumW + weights.sum * budget.toNat ≤ budget.toNat * sumW

theorem Covered.start (budget : UInt64) (weights : List Nat) :
    Covered budget weights.sum 0 weights := by
  rw [Covered, UInt64.toNat_zero, Nat.zero_mul, Nat.zero_add, Nat.mul_comm]

theorem Covered.fits {allocated : UInt64} {weight : Nat} {rest : List Nat} (positive : 0 < sumW)
    (covered : Covered budget sumW allocated (weight :: rest)) :
    allocated.toNat + floorPart budget.toNat sumW weight ≤ budget.toNat := by
  rw [Covered, List.sum_cons, Nat.add_mul] at covered
  have floor : floorPart budget.toNat sumW weight * sumW ≤ weight * budget.toNat :=
    Nat.div_mul_le_self _ _
  refine Nat.le_of_mul_le_mul_right ?_ positive
  rw [Nat.add_mul]
  omega

theorem Covered.part_toNat {allocated : UInt64} {weight : Nat} {rest : List Nat}
    (positive : 0 < sumW) (covered : Covered budget sumW allocated (weight :: rest)) :
    (part budget sumW weight).toNat = floorPart budget.toNat sumW weight :=
  UInt64.toNat_ofNat_of_lt'
    (Nat.lt_of_le_of_lt (Nat.le_of_add_left_le (covered.fits positive)) budget.toNat_lt)

theorem Covered.next_toNat {allocated : UInt64} {weight : Nat} {rest : List Nat}
    (positive : 0 < sumW) (covered : Covered budget sumW allocated (weight :: rest)) :
    (satAdd allocated (part budget sumW weight)).toNat =
      allocated.toNat + floorPart budget.toNat sumW weight := by
  have budgetBound := budget.toNat_lt
  have within := covered.fits positive
  have exactPart := covered.part_toNat positive
  rw [satAdd_toNat (by omega), exactPart]

theorem Covered.next {allocated : UInt64} {weight : Nat} {rest : List Nat} (positive : 0 < sumW)
    (covered : Covered budget sumW allocated (weight :: rest)) :
    Covered budget sumW (satAdd allocated (part budget sumW weight)) rest := by
  have floor : floorPart budget.toNat sumW weight * sumW ≤ weight * budget.toNat :=
    Nat.div_mul_le_self _ _
  rw [Covered, covered.next_toNat positive, Nat.add_mul]
  rw [Covered, List.sum_cons, Nat.add_mul] at covered
  omega

/-- The loop pays every share its part rounded down, and the last one, if it has
weight, all that is left. -/
theorem splitBudget_amounts (positive : 0 < sumW) {conserved : List (Particle × Fx)}
    (nonempty : conserved ≠ []) {allocated : UInt64}
    (covered : Covered budget sumW allocated (weights tru conserved)) :
    amounts (splitBudget tru budget sumW conserved allocated) =
      (floorParts budget.toNat sumW (weights tru conserved)).modify (conserved.length - 1)
        (· + if 0 < (weights tru conserved).getLast?.getD 0 then budget.toNat -
          (allocated.toNat + (floorParts budget.toNat sumW (weights tru conserved)).sum) else 0) := by
  induction conserved generalizing allocated with
  | nil => exact absurd rfl nonempty
  | cons entry rest ih =>
      obtain ⟨neuron, share⟩ := entry
      have seen : weights tru ((neuron, share) :: rest) =
          fxWeight tru share :: weights tru rest := rfl
      rw [seen] at covered ⊢
      have within := covered.fits positive
      by_cases last : rest = []
      · subst last
        rw [splitBudget_last, amounts_cons, amounts_nil]
        have alone : weights tru [] = [] := rfl
        simp only [alone, floorParts, List.map_cons, List.map_nil, List.length_singleton,
          Nat.sub_self, List.modify_zero_cons, List.getLast?_singleton, Option.getD_some,
          List.sum_singleton]
        rcases Nat.eq_zero_or_pos (fxWeight tru share) with weightless | weighted
        · simp [weightless]
        · rw [if_neg (Nat.ne_of_gt weighted), if_pos weighted, satSub_toNat]
          congr 1
          omega
      · have others : weights tru rest ≠ [] := by simpa [weights] using last
        have later := ih last (covered.next positive)
        rw [covered.next_toNat positive] at later
        have head : (if fxWeight tru share = 0 then 0
            else part budget sumW (fxWeight tru share)).toNat =
              floorPart budget.toNat sumW (fxWeight tru share) := by
          split_ifs with weightless
          · rw [weightless, floorPart_zero]
            rfl
          · exact covered.part_toNat positive
        have length : ((neuron, share) :: rest).length - 1 = rest.length - 1 + 1 := by
          have some := List.length_pos_iff.mpr last
          rw [List.length_cons]
          omega
        rw [splitBudget_cons neuron share last, amounts_cons, later, length,
          List.getLast?_cons_of_ne_nil others, floorParts_cons, List.modify_succ_cons,
          List.sum_cons, ← Nat.add_assoc]
        dsimp only
        rw [head]

theorem splitBudget_sum (budget : UInt64) {conserved : List (Particle × Fx)}
    (positive : 0 < (weights tru conserved).sum) :
    (amounts (splitBudget tru budget (weights tru conserved).sum conserved 0)).sum =
      if 0 < (weights tru conserved).getLast?.getD 0 then budget.toNat
      else (floorParts budget.toNat (weights tru conserved).sum (weights tru conserved)).sum := by
  have nonempty : conserved ≠ [] := by
    rintro rfl
    exact Nat.lt_irrefl 0 positive
  have within := floorParts_sum_le budget.toNat positive
    (Nat.le_refl (weights tru conserved).sum)
  have inside : conserved.length - 1 <
      (floorParts budget.toNat (weights tru conserved).sum (weights tru conserved)).length := by
    rw [floorParts_length, weights, List.length_map]
    exact Nat.sub_lt (List.length_pos_iff.mpr nonempty) Nat.one_pos
  rw [splitBudget_amounts positive nonempty (Covered.start budget _), sum_modify_add inside,
    UInt64.toNat_zero, Nat.zero_add]
  split_ifs <;> omega

theorem splitBudget_sum_le (budget : UInt64) {conserved : List (Particle × Fx)}
    (positive : 0 < (weights tru conserved).sum) :
    (amounts (splitBudget tru budget (weights tru conserved).sum conserved 0)).sum ≤
      budget.toNat := by
  rw [splitBudget_sum budget positive]
  split_ifs
  · exact Nat.le_refl _
  · exact floorParts_sum_le _ positive (Nat.le_refl _)

theorem rezero_eq {conserved : List (Particle × Fx)} {out : List SettledShare}
    (kept : List.Forall₂ (Pays tru) conserved out) :
    List.zipWith (fun weight settled =>
        if weight = 0 then { settled with amount := 0 } else settled)
      (weights tru conserved) out = out := by
  induction kept with
  | nil => rfl
  | cons here _ ih =>
      rw [weights, List.map_cons, List.zipWith_cons_cons]
      congr 1
      split_ifs with weightless
      · rw [← here.weightless (here.share_eq ▸ weightless)]
      · rfl

theorem weights_eq {conserved : List (Particle × Fx)} {out : List SettledShare}
    (kept : List.Forall₂ (Pays tru) conserved out) :
    out.map (fun settled => fxWeight tru settled.share) = weights tru conserved := by
  induction kept with
  | nil => rfl
  | cons here _ ih =>
      rw [weights, List.map_cons, List.map_cons, here.share_eq, ih]
      rfl

end Split

/-- The remainder is paid once. -/
theorem payRemainder_amounts {tru : Tru} {remainder : UInt64} {shares : List SettledShare}
    (bound : (amounts shares).sum + remainder.toNat < 2 ^ 64) :
    amounts (payRemainder tru remainder shares) =
      (amounts shares).modify
        ((shares.map fun settled => fxWeight tru settled.share).findIdx (0 < ·))
        (· + remainder.toNat) := by
  induction shares with
  | nil => rfl
  | cons settled rest ih =>
      rw [amounts_cons, List.sum_cons] at bound
      by_cases positive : fxWeight tru settled.share > 0
      · rw [payRemainder, if_pos positive, List.map_cons, List.findIdx_cons, amounts_cons,
          amounts_cons, satAdd_toNat (by omega)]
        simp [positive]
      · rw [payRemainder, if_neg positive, List.map_cons, List.findIdx_cons, amounts_cons,
          amounts_cons, ih (by omega)]
        simp [positive]

theorem allocateBudget_eq {tru : Tru} {tok : Tok} {raw conserved : List (Particle × Fx)}
    (budget : UInt64) {directedTotal : Fx} (clipped : tok.clipShares raw directedTotal = .ok conserved)
    (weighted : (weights tru conserved).sum ≠ 0) :
    allocateBudget tru tok raw budget directedTotal =
      let out := splitBudget tru budget (weights tru conserved).sum conserved 0
      let paid := (out.map SettledShare.amount).sum
      .ok (if paid < budget then payRemainder tru (budget - paid) out else out) := by
  have kept := splitBudget_pays tru budget (weights tru conserved).sum conserved 0
  simp only [allocateBudget, clipped, if_neg weighted, rezero_eq kept]

theorem payRemainder_pays {tru : Tru} {remainder : UInt64} {conserved : List (Particle × Fx)}
    {shares : List SettledShare} (kept : List.Forall₂ (Pays tru) conserved shares) :
    List.Forall₂ (Pays tru) conserved (payRemainder tru remainder shares) := by
  induction kept with
  | nil => exact .nil
  | @cons entry settled _ _ here later ih =>
      rw [payRemainder]
      split_ifs with positive
      · have never (weightless : fxWeight tru settled.share = 0) :
            satAdd settled.amount remainder = 0 := absurd weightless (Nat.ne_of_gt positive)
        exact .cons ⟨here.neuron_eq, here.share_eq, never⟩ later
      · exact .cons here ih

/-- A successful allocation pays the clipped shares, in their order, and those
without weight nothing. -/
theorem allocateBudget_pays {tru : Tru} {tok : Tok} {raw conserved : List (Particle × Fx)}
    {budget : UInt64} {directedTotal : Fx} {shares : List SettledShare}
    (clipped : tok.clipShares raw directedTotal = .ok conserved)
    (allocated : allocateBudget tru tok raw budget directedTotal = .ok shares) :
    List.Forall₂ (Pays tru) conserved shares := by
  by_cases weighted : (weights tru conserved).sum = 0
  · simp [allocateBudget, clipped, weighted] at allocated
  · have kept := splitBudget_pays tru budget (weights tru conserved).sum conserved 0
    rw [allocateBudget_eq budget clipped weighted] at allocated
    injection allocated with result
    subst result
    split_ifs
    · exact payRemainder_pays kept
    · exact kept

/-- The amounts of a successful allocation are the rounded parts of the budget,
with the rest at the favoured share. -/
theorem allocateBudget_amounts {tru : Tru} {tok : Tok} {raw conserved : List (Particle × Fx)}
    {budget : UInt64} {directedTotal : Fx} {shares : List SettledShare}
    (clipped : tok.clipShares raw directedTotal = .ok conserved)
    (allocated : allocateBudget tru tok raw budget directedTotal = .ok shares) :
    0 < (weights tru conserved).sum ∧
      amounts shares = favouredParts budget.toNat (weights tru conserved) := by
  by_cases weighted : (weights tru conserved).sum = 0
  · simp [allocateBudget, clipped, weighted] at allocated
  · have positive := Nat.pos_of_ne_zero weighted
    refine ⟨positive, ?_⟩
    have budgetBound := budget.toNat_lt
    have nonempty : conserved ≠ [] := by
      rintro rfl
      exact weighted rfl
    have kept := splitBudget_pays tru budget (weights tru conserved).sum conserved 0
    have split := splitBudget_amounts positive nonempty (Covered.start budget _)
    have total := splitBudget_sum budget positive
    have within := splitBudget_sum_le budget positive
    have length : (weights tru conserved).length = conserved.length := List.length_map _
    rw [UInt64.toNat_zero, Nat.zero_add] at split
    rw [allocateBudget_eq budget clipped weighted] at allocated
    generalize splitBudget tru budget (weights tru conserved).sum conserved 0 = out
      at kept split total within allocated
    have paid := amount_sum_toNat (Nat.lt_of_le_of_lt within budgetBound)
    injection allocated with result
    subst result
    rw [favouredParts, favoured, length]
    by_cases last : 0 < (weights tru conserved).getLast?.getD 0
    -- the last share has taken the rest, and nothing remains to be paid
    · rw [if_pos last] at split total
      rw [if_pos last, if_neg (by rw [UInt64.lt_iff_toNat_lt, paid, total]; exact Nat.lt_irrefl _),
        split]
    · rw [if_neg last, modify_add_zero] at split
      rw [if_neg last] at total
      rw [if_neg last]
      split_ifs with short
      · have remainder : (budget - (out.map SettledShare.amount).sum).toNat =
            budget.toNat - (amounts out).sum := by
          rw [UInt64.toNat_sub_of_le _ _ (UInt64.le_of_lt short), paid]
        rw [payRemainder_amounts (by omega), remainder, weights_eq kept, split]
      · have enough := UInt64.le_iff_toNat_le.mp (UInt64.not_lt.mp short)
        rw [paid, total] at enough
        rw [split, Nat.sub_eq_zero_of_le enough, modify_add_zero]

/-- Whatever the clip returns, the amounts of a successful allocation add up to
the budget. -/
theorem allocateBudget_sum {tru : Tru} {tok : Tok} {raw : List (Particle × Fx)} {budget : UInt64}
    {directedTotal : Fx} {shares : List SettledShare}
    (allocated : allocateBudget tru tok raw budget directedTotal = .ok shares) :
    (amounts shares).sum = budget.toNat := by
  cases clipped : tok.clipShares raw directedTotal with
  | error reason => simp [allocateBudget, clipped] at allocated
  | ok conserved =>
      obtain ⟨positive, paid⟩ := allocateBudget_amounts clipped allocated
      rw [paid, favouredParts_sum positive]

/-! The receipt hash covers what each neuron is paid. -/

def SettledShare.paid (settled : SettledShare) : Particle × UInt64 :=
  (settled.neuron, settled.amount)

theorem paid_fixedWidth : FixedWidth
    (fun entry : Particle × UInt64 => entry.1.toList ++ u64Bytes entry.2) 40 :=
  Particle.toList_fixedWidth.append u64Bytes_fixedWidth

theorem amounts_eq_paid (shares : List SettledShare) :
    amounts shares = (shares.map SettledShare.paid).map fun entry => entry.2.toNat := by
  rw [List.map_map]
  rfl

/-- Of the shares, the preimage holds who is paid how much. -/
theorem receiptPreimage_eq (epoch : UInt64) (beacon : Particle) (shares : List SettledShare) :
    receiptPreimage epoch beacon shares = u64Bytes epoch ++ beacon.toList ++
      ((shares.map SettledShare.paid).insertionSort fun left right => left.1 ≤ right.1).flatMap
        fun entry => entry.1.toList ++ u64Bytes entry.2 := by
  have sorted : ((shares.map SettledShare.paid).insertionSort fun left right => left.1 ≤ right.1) =
      (sortByNeuron shares).map SettledShare.paid :=
    (List.map_insertionSort _ _ SettledShare.paid shares fun _ _ _ _ => Iff.rfl).symm
  rw [receiptPreimage, sorted, List.flatMap_map]
  rfl

theorem receiptPreimage_inj {epoch otherEpoch : UInt64} {beacon otherBeacon : Particle}
    {shares others : List SettledShare}
    (same : receiptPreimage epoch beacon shares = receiptPreimage otherEpoch otherBeacon others) :
    epoch = otherEpoch ∧ beacon = otherBeacon ∧
      (shares.map SettledShare.paid).Perm (others.map SettledShare.paid) := by
  rw [receiptPreimage_eq, receiptPreimage_eq, List.append_assoc, List.append_assoc] at same
  obtain ⟨epochs, afterEpoch⟩ := List.append_inj same (by simp)
  obtain ⟨beacons, written⟩ := List.append_inj afterEpoch (by simp)
  refine ⟨u64Bytes_inj epochs, Particle.toList_fixedWidth.injective beacons, ?_⟩
  have lengths := congrArg List.length written
  rw [paid_fixedWidth.flatMap_length, paid_fixedWidth.flatMap_length] at lengths
  have entries := paid_fixedWidth.flatMap_inj
    (Nat.eq_of_mul_eq_mul_right (by decide) lengths) written
  have sorted := List.perm_insertionSort (fun left right => left.1 ≤ right.1)
    (others.map SettledShare.paid)
  rw [← entries] at sorted
  exact (List.perm_insertionSort _ _).symm.trans sorted

theorem receiptPreimage_sum {epoch otherEpoch : UInt64} {beacon otherBeacon : Particle}
    {shares others : List SettledShare}
    (same : receiptPreimage epoch beacon shares = receiptPreimage otherEpoch otherBeacon others) :
    (amounts shares).sum = (amounts others).sum := by
  obtain ⟨_, _, permuted⟩ := receiptPreimage_inj same
  rw [amounts_eq_paid, amounts_eq_paid]
  exact (permuted.map _).sum_eq

end Foculus.Settlement

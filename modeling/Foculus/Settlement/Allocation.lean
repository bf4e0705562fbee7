import Foculus.Data.Checked
import Foculus.Settlement.Conservation

namespace Foculus.Settlement

open Data

/-! # Who is paid how much by an allocation (`allocate_budget` of `src/rewards.rs`)

Every share gets its part rounded down; the rest of the budget goes to one
favoured share. -/

section Fair

variable (tru : Tru) (budget : UInt64) (conserved : List (Particle × Fx))

def floorOf (entry : Particle × Fx) : Nat :=
  fxWeight tru entry.2 * budget.toNat / (weights tru conserved).sum

/-- What the split owes to one clipped share. -/
structure FairShare (entry : Particle × Fx) (settled : SettledShare) : Prop where
  neuron_eq : settled.neuron = entry.1
  share_eq : settled.share = entry.2
  weightless : fxWeight tru entry.2 = 0 → settled.amount = 0
  atLeast : floorOf tru budget conserved entry ≤ settled.amount.toNat
  excess : settled.amount.toNat <
    floorOf tru budget conserved entry + (weights tru conserved).countP (0 < ·)

def AboveFloor (shares : List SettledShare) (i : Nat) : Prop :=
  ∃ entry settled, conserved[i]? = some entry ∧ shares[i]? = some settled ∧
    floorOf tru budget conserved entry < settled.amount.toNat

structure FairSplit (shares : List SettledShare) : Prop where
  total : (amounts shares).sum = budget.toNat
  each : List.Forall₂ (FairShare tru budget conserved) conserved shares
  oneAbove : ∀ i j, AboveFloor tru budget conserved shares i →
    AboveFloor tru budget conserved shares j → i = j

end Fair

section Checked

variable (tru : Tru)

/-! The same computation with every operation checked: a sum or product that
does not fit its width, a cast that would lose bits and a saturating operation
that would saturate all fail. -/

def checkedSplit (budget : UInt64) (sumW : Nat) :
    List (Particle × Fx) → (allocated : Nat) → Option (List SettledShare)
  | [], _ => some []
  | (neuron, share) :: rest, allocated =>
      let weight := fxWeight tru share
      if rest.isEmpty then do
        let amt ← checkedSub budget.toNat allocated
        return [{ neuron, share, amount := if weight = 0 then 0 else UInt64.ofNat amt }]
      else do
        let product ← fit 128 (weight * budget.toNat)
        let a ← fit 64 (product / sumW)
        let allocated ← fit 64 (allocated + a)
        let others ← checkedSplit budget sumW rest allocated
        return { neuron, share, amount := if weight = 0 then 0 else UInt64.ofNat a } :: others

def checkedRemainder (remainder : Nat) : List SettledShare → Option (List SettledShare)
  | [] => some []
  | settled :: rest =>
      if fxWeight tru settled.share > 0 then do
        let amount ← fit 64 (settled.amount.toNat + remainder)
        return { settled with amount := UInt64.ofNat amount } :: rest
      else do
        let others ← checkedRemainder remainder rest
        return settled :: others

def checkedAllocate (tok : Tok) (raw : List (Particle × Fx)) (budget : UInt64)
    (directedTotal : Fx) : Option (Except RewardError (List SettledShare)) :=
  match tok.clipShares raw directedTotal with
  | .error reason => some (.error (conserveError reason))
  | .ok conserved => do
      let sumW ← checkedSum 128 (weights tru conserved)
      if sumW = 0 then return .error .noPositiveShare
      else
        let out ← checkedSplit tru budget sumW conserved 0
        let out := List.zipWith (fun weight settled =>
          if weight = 0 then { settled with amount := 0 } else settled) (weights tru conserved) out
        let paid ← checkedSum 64 (amounts out)
        if paid < budget.toNat then do
          let remainder ← checkedSub budget.toNat paid
          let out ← checkedRemainder tru remainder out
          return .ok out
        else return .ok out

end Checked

section Fits

variable {tru : Tru} {budget : UInt64} {sumW : Nat}

theorem fxWeight_lt (tru : Tru) (x : Fx) : fxWeight tru x < 2 ^ 64 := by
  rw [fxWeight]
  split_ifs
  · exact Nat.two_pow_pos 64
  · exact (ZMod.val_lt x.raw).trans (by norm_num [P])

theorem weights_sum_lt {conserved : List (Particle × Fx)} (counted : conserved.length < 2 ^ 64) :
    (weights tru conserved).sum < 2 ^ 128 := by
  have bounded : (weights tru conserved).sum ≤ (weights tru conserved).length • (2 ^ 64 - 1) := by
    refine List.sum_le_card_nsmul _ _ fun weight member => ?_
    obtain ⟨entry, _, rfl⟩ := List.mem_map.mp member
    exact Nat.le_sub_one_of_lt (fxWeight_lt tru entry.2)
  rw [weights, List.length_map, smul_eq_mul] at bounded
  have worst := Nat.mul_le_mul_right (2 ^ 64 - 1) counted.le
  rw [weights]
  omega

/-- No operation of the split loop overflows or saturates. -/
theorem checkedSplit_eq (positive : 0 < sumW) (conserved : List (Particle × Fx))
    {allocated : UInt64} (within : allocated ≤ budget)
    (covered : Covered budget sumW allocated (weights tru conserved)) :
    checkedSplit tru budget sumW conserved allocated.toNat =
      some (splitBudget tru budget sumW conserved allocated) := by
  have budgetBound := budget.toNat_lt
  induction conserved generalizing allocated with
  | nil => rfl
  | cons entry rest ih =>
      obtain ⟨neuron, share⟩ := entry
      have seen : weights tru ((neuron, share) :: rest) =
          fxWeight tru share :: weights tru rest := rfl
      rw [seen] at covered
      by_cases last : rest = []
      · subst last
        rw [checkedSplit, splitBudget_last]
        simp only [List.isEmpty_nil, if_true, checkedSub_eq (UInt64.le_iff_toNat_le.mp within)]
        rfl
      · have product := Nat.mul_lt_mul'' (fxWeight_lt tru share) budgetBound
        rw [← Nat.pow_add] at product
        have fits := covered.fits positive
        have next := covered.next_toNat positive
        have later := ih (UInt64.le_iff_toNat_le.mpr (by rw [next]; exact fits))
          (covered.next positive)
        rw [next] at later
        rw [floorPart] at fits later
        rw [checkedSplit, splitBudget_cons neuron share last]
        simp only [List.isEmpty_iff, last, if_false, fit_eq product,
          fit_eq (Nat.lt_of_le_of_lt (Nat.le_of_add_left_le fits) budgetBound),
          fit_eq (Nat.lt_of_le_of_lt fits budgetBound), later, Option.bind_eq_bind,
          Option.bind_some]
        rfl

theorem checkedRemainder_eq (tru : Tru) (remainder : UInt64) (shares : List SettledShare)
    (bound : (amounts shares).sum + remainder.toNat < 2 ^ 64) :
    checkedRemainder tru remainder.toNat shares = some (payRemainder tru remainder shares) := by
  induction shares with
  | nil => rfl
  | cons settled rest ih =>
      rw [amounts_cons, List.sum_cons] at bound
      have fits : settled.amount.toNat + remainder.toNat < 2 ^ 64 := by omega
      rw [checkedRemainder, payRemainder]
      split_ifs with positive
      · have sum : UInt64.ofNat (settled.amount.toNat + remainder.toNat) =
            satAdd settled.amount remainder := by
          rw [← UInt64.toNat_inj, satAdd_toNat fits, UInt64.toNat_ofNat_of_lt' fits]
        simp only [fit_eq fits, ← sum]
        rfl
      · rw [ih (by omega)]
        rfl

theorem checkedAllocate_eq {tok : Tok} {raw conserved : List (Particle × Fx)}
    {directedTotal : Fx} {shares : List SettledShare}
    (clipped : tok.clipShares raw directedTotal = .ok conserved)
    (counted : conserved.length < 2 ^ 64)
    (allocated : allocateBudget tru tok raw budget directedTotal = .ok shares) :
    checkedAllocate tru tok raw budget directedTotal = some (.ok shares) := by
  obtain ⟨positive, _⟩ := allocateBudget_amounts clipped allocated
  have weighted := Nat.ne_of_gt positive
  have budgetBound := budget.toNat_lt
  have kept := splitBudget_pays tru budget (weights tru conserved).sum conserved 0
  have within := splitBudget_sum_le budget positive
  have split := checkedSplit_eq positive conserved (UInt64.zero_le) (Covered.start budget _)
  rw [UInt64.toNat_zero] at split
  rw [allocateBudget_eq budget clipped weighted] at allocated
  simp only [checkedAllocate, clipped, checkedSum_eq (weights_sum_lt counted), Option.bind_eq_bind,
    Option.bind_some, if_neg weighted, split, rezero_eq kept]
  generalize splitBudget tru budget (weights tru conserved).sum conserved 0 = out
    at within allocated
  have paid := amount_sum_toNat (Nat.lt_of_le_of_lt within budgetBound)
  simp only [checkedSum_eq (Nat.lt_of_le_of_lt within budgetBound), Option.bind_some]
  injection allocated with result
  subst result
  by_cases short : (amounts out).sum < budget.toNat
  · have shortPaid : (out.map SettledShare.amount).sum < budget := by
      rw [UInt64.lt_iff_toNat_lt, paid]
      exact short
    have remainder : (budget - (out.map SettledShare.amount).sum).toNat =
        budget.toNat - (amounts out).sum := by
      rw [UInt64.toNat_sub_of_le _ _ (UInt64.le_of_lt shortPaid), paid]
    have rest := checkedRemainder_eq tru (budget - (out.map SettledShare.amount).sum) out
      (by rw [remainder]; omega)
    rw [remainder] at rest
    simp only [if_pos short, if_pos shortPaid, checkedSub_eq short.le, Option.bind_some, rest]
    rfl
  · have enough : ¬ (out.map SettledShare.amount).sum < budget := by
      rw [UInt64.lt_iff_toNat_lt, paid]
      exact short
    rw [if_neg short, if_neg enough]
    rfl

end Fits

section Shares

variable {tru : Tru} {tok : Tok} {budget : UInt64} {raw conserved : List (Particle × Fx)}
  {directedTotal : Fx} {shares : List SettledShare}

/-- The amount of a share: its floor, and the rest on top if it is favoured. -/
theorem amount_eq (clipped : tok.clipShares raw directedTotal = .ok conserved)
    (allocated : allocateBudget tru tok raw budget directedTotal = .ok shares) {i : Nat}
    {entry : Particle × Fx} {settled : SettledShare} (clippedAt : conserved[i]? = some entry)
    (settledAt : shares[i]? = some settled) :
    settled.amount.toNat = floorOf tru budget conserved entry +
      if favoured (weights tru conserved) = i then budget.toNat -
        (floorParts budget.toNat (weights tru conserved).sum (weights tru conserved)).sum else 0 := by
  obtain ⟨_, paid⟩ := allocateBudget_amounts clipped allocated
  have weighted : (weights tru conserved)[i]? = some (fxWeight tru entry.2) := by
    rw [weights, List.getElem?_map, clippedAt]
    rfl
  have own : (amounts shares)[i]? = some settled.amount.toNat := by
    rw [amounts, List.getElem?_map, settledAt]
    rfl
  rw [paid, favouredParts_getElem? weighted] at own
  exact (Option.some.inj own).symm

/-- Whatever list the clip returns, a successful allocation splits the budget
fairly among it, and none of its operations overflows; a `Vec` holds fewer than
`2 ^ 64` shares. -/
theorem allocateBudget_fair
    (allocated : allocateBudget tru tok raw budget directedTotal = .ok shares) :
    ∃ conserved, tok.clipShares raw directedTotal = .ok conserved ∧
      FairSplit tru budget conserved shares ∧
      (conserved.length < 2 ^ 64 →
        checkedAllocate tru tok raw budget directedTotal = some (.ok shares)) := by
  cases clipped : tok.clipShares raw directedTotal with
  | error reason => simp [allocateBudget, clipped] at allocated
  | ok conserved =>
      obtain ⟨positive, _⟩ := allocateBudget_amounts clipped allocated
      have pays := allocateBudget_pays clipped allocated
      have within := floorParts_sum_le budget.toNat positive
        (Nat.le_refl (weights tru conserved).sum)
      have missing := lt_floorParts_sum budget.toNat positive
      refine ⟨conserved, rfl, ⟨allocateBudget_sum allocated, ?_, ?_⟩,
        fun counted => checkedAllocate_eq clipped counted allocated⟩
      · rw [List.forall₂_iff_get] at pays ⊢
        refine ⟨pays.1, ?_⟩
        intro i clippedBound settledBound
        have here := pays.2 i clippedBound settledBound
        have amount := amount_eq clipped allocated (List.getElem?_eq_getElem clippedBound)
          (List.getElem?_eq_getElem settledBound)
        simp only [List.get_eq_getElem] at here ⊢
        refine ⟨here.neuron_eq, here.share_eq, ?_, ?_, ?_⟩
        · intro weightless
          exact here.weightless (here.share_eq ▸ weightless)
        · rw [amount]
          exact Nat.le_add_right _ _
        · rw [amount]
          split_ifs <;> omega
      · have onlyFavoured (i : Nat) (above : AboveFloor tru budget conserved shares i) :
            favoured (weights tru conserved) = i := by
          obtain ⟨entry, settled, clippedAt, settledAt, above⟩ := above
          have amount := amount_eq clipped allocated clippedAt settledAt
          by_contra other
          rw [if_neg other] at amount
          omega
        intro i j left right
        rw [← onlyFavoured i left, ← onlyFavoured j right]

/-- Two shares of weight 3 and 5, each followed by one without weight. -/
def unevenShares : List (Particle × Fx) :=
  [(Vector.replicate 32 1, ⟨3⟩), (Vector.replicate 32 2, 0), (Vector.replicate 32 3, ⟨5⟩),
    (Vector.replicate 32 1, 0)]

theorem allocateBudget_fair_uneven :
    let shares : List SettledShare :=
      [⟨Vector.replicate 32 1, ⟨3⟩, 38⟩, ⟨Vector.replicate 32 2, 0, 0⟩,
        ⟨Vector.replicate 32 3, ⟨5⟩, 62⟩, ⟨Vector.replicate 32 1, 0, 0⟩]
    allocateBudget .unit .unclipped unevenShares 100 0 = .ok shares ∧
      FairSplit .unit 100 unevenShares shares ∧
      checkedAllocate .unit .unclipped unevenShares 100 0 = some (.ok shares) := by
  intro shares
  have allocated : allocateBudget .unit .unclipped unevenShares 100 0 = .ok shares := by
    decide +kernel
  obtain ⟨conserved, clipped, fair, exact⟩ := allocateBudget_fair allocated
  cases clipped
  exact ⟨allocated, fair, exact (by decide)⟩

end Shares

end Foculus.Settlement

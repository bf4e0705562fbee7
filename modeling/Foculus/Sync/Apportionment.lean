import Foculus.Data.Checked
import Foculus.Sync.Placement

namespace Foculus.Sync.Apportionment

open Data

/-! # How the shards are shared out (`capacity_weighted_placement` in `src/node.rs`)

Every device is given its share by capacity, rounded down, and what the rounding leaves
over goes out one by one, to the devices that report the most.  The function is here
once more with its sums and products checked, as they are when it runs.
-/

/-- The first loop: the shares of the devices, and what they come to. -/
def shareOut (nShards totalCap : Nat) : List Nat → (assigned : Nat) → Outcome Unit (List Nat × Nat)
  | [], assigned => return ([], assigned)
  | cap :: rest, assigned => do
      let product ← .expect (fit 128 (nShards * max cap 1))
      let quotient ← .expect (if totalCap = 0 then none else some (product / totalCap))
      let share := quotient % 2 ^ 64
      let assigned ← .expect (fit 64 (assigned + share))
      let (alloc, assigned) ← shareOut nShards totalCap rest assigned
      return (share :: alloc, assigned)

/-- The second loop: one more to each device, as long as there are any left. -/
def handOut : (order : List Nat) → (remainder : Nat) → List Nat → Outcome Unit (List Nat)
  | [], _, alloc => return alloc
  | d :: rest, remainder, alloc =>
      if remainder = 0 then return alloc
      else do
        let count ← .expect alloc[d]?
        let count ← .expect (fit 64 (count + 1))
        let remainder ← .expect (checkedSub remainder 1)
        handOut rest remainder (alloc.set d count)

def capacityWeightedPlacement (nShards : Nat) (peerCapacities : List UInt64) :
    Outcome Unit (List Nat) := do
  let nDevices ← .expect (fit 64 (peerCapacities.length + 1))
  if nDevices = 0 ∨ nShards = 0 then return List.replicate nShards 0
  else do
    let caps := (2 ^ 64 - 1) :: peerCapacities.map UInt64.toNat
    let totalCap ← .expect (checkedSum 128 (caps.map (max · 1)))
    let (alloc, assigned) ← shareOut nShards totalCap caps 0
    let remainder := nShards - assigned
    let order := (List.range nDevices).insertionSort fun a b => caps.getD b 0 ≤ caps.getD a 0
    let alloc ← handOut order remainder alloc
    return (alloc.zipIdx.flatMap fun (count, device) => List.replicate count device).take nShards

section Loops

variable {nShards totalCap assigned remainder : Nat} {caps order alloc : List Nat}

theorem shareOut_eq (small : nShards < 2 ^ 64) (positive : 0 < totalCap)
    (words : ∀ cap ∈ caps, cap < 2 ^ 64)
    (fits : assigned + (floorParts nShards totalCap (caps.map (max · 1))).sum < 2 ^ 64) :
    shareOut nShards totalCap caps assigned =
      .ok (floorParts nShards totalCap (caps.map (max · 1)),
        assigned + (floorParts nShards totalCap (caps.map (max · 1))).sum) := by
  induction caps generalizing assigned with
  | nil => rfl
  | cons cap rest ih =>
      have word : max cap 1 < 2 ^ 64 := max_lt (words cap List.mem_cons_self) (by decide)
      have product : nShards * max cap 1 < 2 ^ 64 * 2 ^ 64 := Nat.mul_lt_mul'' small word
      have share : nShards * max cap 1 / totalCap = floorPart nShards totalCap (max cap 1) := by
        rw [floorPart, Nat.mul_comm]
      rw [List.map_cons, floorParts_cons, List.sum_cons, ← Nat.add_assoc] at fits ⊢
      rw [shareOut, fit_eq product, Outcome.expect_some, Outcome.ok_bind,
        if_neg (Nat.ne_of_gt positive), Outcome.expect_some, Outcome.ok_bind, share]
      dsimp only
      rw [Nat.mod_eq_of_lt (by omega), fit_eq (by omega), Outcome.expect_some, Outcome.ok_bind,
        ih (fun other member => words other (List.mem_cons_of_mem _ member)) fits]
      rfl

theorem handOut_eq (inside : ∀ d ∈ order, d < alloc.length)
    (fits : alloc.sum + remainder < 2 ^ 64) :
    handOut order remainder alloc =
      .ok ((order.take remainder).foldl (fun alloc d => alloc.modify d (· + 1)) alloc) := by
  induction order generalizing remainder alloc with
  | nil => rw [handOut, List.take_nil]; rfl
  | cons d rest ih =>
      cases remainder with
      | zero => rfl
      | succ remainder =>
          have here : d < alloc.length := inside d List.mem_cons_self
          have count : alloc[d] ≤ alloc.sum := List.le_sum_of_mem (List.getElem_mem here)
          have moved : alloc.modify d (· + 1) = alloc.set d (alloc[d] + 1) :=
            List.modify_eq_set_get (· + 1) here
          rw [handOut, if_neg (Nat.succ_ne_zero _), List.getElem?_eq_getElem here,
            Outcome.expect_some, Outcome.ok_bind, fit_eq (by omega), Outcome.expect_some,
            Outcome.ok_bind, checkedSub_eq (by omega), Outcome.expect_some, Outcome.ok_bind,
            ← moved, List.take_succ_cons, List.foldl_cons]
          refine ih (fun other member => ?_) ?_
          · rw [List.length_modify]
            exact inside other (List.mem_cons_of_mem _ member)
          · rw [sum_modify_add here]
            omega

end Loops

section Counts

variable {nShards device cap : Nat} {peerCapacities : List UInt64}

/-- In the list of the devices each occurs as often as it is given a shard. -/
theorem count_spread (counts : List Nat) (device : Nat) :
    (spread counts).count device = counts[device]?.getD 0 := by
  -- The numbering of the devices starts anywhere, for the induction.
  have numbered (first : Nat) (counts : List Nat) :
      ((counts.zipIdx first).flatMap fun (count, device) => List.replicate count device).count
          (first + device) = counts[device]?.getD 0 := by
    induction counts generalizing first device with
    | nil => rfl
    | cons count rest ih =>
        rw [List.zipIdx_cons, List.flatMap_cons, List.count_append, List.count_replicate]
        cases device with
        | zero =>
            have later : first ∉ (rest.zipIdx (first + 1)).flatMap fun (count, device) =>
                List.replicate count device := by
              intro member
              obtain ⟨⟨count, other⟩, numbered, copies⟩ := List.mem_flatMap.mp member
              have above := List.le_snd_of_mem_zipIdx numbered
              rw [List.eq_of_mem_replicate copies] at above
              omega
            rw [Nat.add_zero, List.count_eq_zero.mpr later]
            simp
        | succ device =>
            have other : ¬ (first == first + (device + 1)) = true := by simp
            rw [if_neg other, Nat.zero_add, List.getElem?_cons_succ, ← ih device (first + 1),
              Nat.add_right_comm, Nat.add_assoc first device 1]
  rw [← numbered 0 counts, Nat.zero_add]
  rfl

theorem mem_spread {counts : List Nat} (member : device ∈ spread counts) :
    device < counts.length := by
  obtain ⟨⟨count, other⟩, numbered, copies⟩ := List.mem_flatMap.mp member
  rw [List.eq_of_mem_replicate copies]
  exact List.snd_lt_of_mem_zipIdx numbered

/-- The shares of the devices, rounded down. -/
def deviceShares (nShards : Nat) (peerCapacities : List UInt64) : List Nat :=
  floorParts nShards (deviceCaps peerCapacities).sum (deviceCaps peerCapacities)

theorem deviceCounts_eq (nShards : Nat) (peerCapacities : List UInt64) :
    deviceCounts nShards peerCapacities =
      ((deviceOrder peerCapacities).take
        (nShards - (deviceShares nShards peerCapacities).sum)).foldl
          (fun counts d => counts.modify d (· + 1)) (deviceShares nShards peerCapacities) := rfl

theorem deviceShares_sum_le (nShards : Nat) (peerCapacities : List UInt64) :
    (deviceShares nShards peerCapacities).sum ≤ nShards :=
  floorParts_sum_le nShards (deviceCaps_positive peerCapacities) (Nat.le_refl _)

/-- A device is given its share rounded down, or one more. -/
theorem deviceCounts_getElem? (nShards : Nat)
    (weighted : (deviceCaps peerCapacities)[device]? = some cap) :
    ∃ spare ≤ 1, (deviceCounts nShards peerCapacities)[device]? =
      some (nShards * cap / (deviceCaps peerCapacities).sum + spare) := by
  let topped := (deviceOrder peerCapacities).take
    (nShards - (deviceShares nShards peerCapacities).sum)
  have once : topped.count device ≤ 1 := by
    refine List.nodup_iff_count_le_one.mp ?_ device
    exact (deviceOrder_nodup peerCapacities).sublist (List.take_sublist _ _)
  refine ⟨topped.count device, once, ?_⟩
  rw [deviceCounts_eq, foldl_modify_getElem?, deviceShares, floorParts, List.getElem?_map, weighted,
    Nat.mul_comm]
  rfl

theorem deviceCounts_length (nShards : Nat) (peerCapacities : List UInt64) :
    (deviceCounts nShards peerCapacities).length = peerCapacities.length + 1 := by
  have kept (devices counts : List Nat) :
      (devices.foldl (fun counts d => counts.modify d (· + 1)) counts).length = counts.length := by
    induction devices generalizing counts with
    | nil => rfl
    | cons d rest ih => rw [List.foldl_cons, ih, List.length_modify]
  rw [deviceCounts, kept, floorParts_length, deviceCaps_length]

/-- Without shards there is nothing to place; with some the placement is never too long. -/
theorem capacityWeightedPlacement_spread (nShards : Nat) (peerCapacities : List UInt64) :
    Sync.capacityWeightedPlacement nShards peerCapacities =
      spread (deviceCounts nShards peerCapacities) := by
  have whole : (spread (deviceCounts nShards peerCapacities)).length = nShards := by
    rw [spread_length, (deviceCounts_spec nShards peerCapacities).1]
  by_cases none : nShards = 0
  · rw [Sync.capacityWeightedPlacement, if_pos none]
    exact (List.length_eq_zero_iff.mp (whole.trans none)).symm
  · rw [capacityWeightedPlacement_eq none, List.take_of_length_le whole.le]

theorem reported_lt {cap : Nat} (member : cap ∈ (2 ^ 64 - 1) :: peerCapacities.map UInt64.toNat) :
    cap < 2 ^ 64 := by
  rcases List.mem_cons.mp member with rfl | peer
  · decide
  · obtain ⟨capacity, _, rfl⟩ := List.mem_map.mp peer
    exact capacity.toNat_lt

/-- The largest sum is that of devices that all report as much as this one. -/
theorem deviceCaps_sum_lt (slice : peerCapacities.length + 1 < 2 ^ 64) :
    (deviceCaps peerCapacities).sum < 2 ^ 128 := by
  have bounded : ∀ cap ∈ deviceCaps peerCapacities, cap ≤ 2 ^ 64 - 1 := by
    intro cap member
    obtain ⟨reported, among, rfl⟩ := List.mem_map.mp member
    exact max_le (Nat.le_sub_one_of_lt (reported_lt among)) (by decide)
  have total := List.sum_le_card_nsmul _ _ bounded
  rw [deviceCaps_length, smul_eq_mul] at total
  omega

end Counts

section Returns

variable {nShards : Nat} {peerCapacities : List UInt64}

theorem shareOut_caps (small : nShards < 2 ^ 64) (peerCapacities : List UInt64) :
    shareOut nShards (deviceCaps peerCapacities).sum
      ((2 ^ 64 - 1) :: peerCapacities.map UInt64.toNat) 0 =
      .ok (deviceShares nShards peerCapacities, (deviceShares nShards peerCapacities).sum) := by
  have fits : 0 + (deviceShares nShards peerCapacities).sum < 2 ^ 64 := by
    rw [Nat.zero_add]
    exact Nat.lt_of_le_of_lt (deviceShares_sum_le nShards peerCapacities) small
  have shared :=
    shareOut_eq small (deviceCaps_positive peerCapacities) (fun _ => reported_lt) fits
  rwa [Nat.zero_add] at shared

theorem handOut_order (small : nShards < 2 ^ 64) (peerCapacities : List UInt64) :
    handOut (deviceOrder peerCapacities) (nShards - (deviceShares nShards peerCapacities).sum)
      (deviceShares nShards peerCapacities) = .ok (deviceCounts nShards peerCapacities) := by
  have within := deviceShares_sum_le nShards peerCapacities
  rw [deviceCounts_eq]
  refine handOut_eq (fun d member => ?_) (by omega)
  rw [deviceShares, floorParts_length, deviceCaps_length]
  exact lt_of_mem_deviceOrder member

/-- No sum or product overflows, and the placement is the one without the checks. -/
theorem capacityWeightedPlacement_eq (small : nShards < 2 ^ 64)
    (slice : peerCapacities.length + 1 < 2 ^ 64) :
    capacityWeightedPlacement nShards peerCapacities =
      .ok (Sync.capacityWeightedPlacement nShards peerCapacities) := by
  rw [capacityWeightedPlacement, fit_eq slice, Outcome.expect_some, Outcome.ok_bind]
  by_cases none : nShards = 0
  · rw [if_pos (.inr none), Sync.capacityWeightedPlacement, if_pos none, none]
    rfl
  · have total : checkedSum 128 (((2 ^ 64 - 1) :: peerCapacities.map UInt64.toNat).map (max · 1)) =
        some (deviceCaps peerCapacities).sum := checkedSum_eq (deviceCaps_sum_lt slice)
    have handed := handOut_order small peerCapacities
    rw [deviceOrder] at handed
    rw [if_neg (by omega)]
    dsimp only at handed ⊢
    rw [total, Outcome.expect_some, Outcome.ok_bind, shareOut_caps small, Outcome.ok_bind]
    dsimp only
    rw [handed, Outcome.ok_bind, Sync.capacityWeightedPlacement_eq none]
    rfl

/-- The shards go out in full, to devices that there are, and each device has its share of
them by capacity: rounded down, or one more. -/
theorem placement_apportions (small : nShards < 2 ^ 64)
    (slice : peerCapacities.length + 1 < 2 ^ 64) :
    ∃ placement, capacityWeightedPlacement nShards peerCapacities = .ok placement ∧
      placement.length = nShards ∧ (∀ device ∈ placement, device ≤ peerCapacities.length) ∧
      ∀ device cap, (deviceCaps peerCapacities)[device]? = some cap →
        placement.count device = nShards * cap / (deviceCaps peerCapacities).sum ∨
        placement.count device = nShards * cap / (deviceCaps peerCapacities).sum + 1 := by
  refine ⟨_, capacityWeightedPlacement_eq small slice, ?_⟩
  rw [capacityWeightedPlacement_spread]
  refine ⟨?_, fun device member => ?_, fun device cap weighted => ?_⟩
  · rw [spread_length, (deviceCounts_spec nShards peerCapacities).1]
  · have there := mem_spread member
    rw [deviceCounts_length] at there
    exact Nat.le_of_lt_succ there
  · obtain ⟨spare, atMost, given⟩ := deviceCounts_getElem? nShards weighted
    rw [count_spread, given, Option.getD_some]
    omega

/-- Eight shards for this node, a peer that reports as much and one that reports nothing:
of the two that the rounding leaves over one comes here. -/
theorem placement_apportions_two_peers :
    ∃ placement, capacityWeightedPlacement 8 [18446744073709551615, 0] = .ok placement ∧
      placement.length = 8 ∧ (placement.count 0 = 3 ∨ placement.count 0 = 4) := by
  have small : 8 < 2 ^ 64 := by decide
  have slice : [(18446744073709551615 : UInt64), 0].length + 1 < 2 ^ 64 := by decide
  obtain ⟨placement, returned, length, -, counts⟩ := placement_apportions small slice
  exact ⟨placement, returned, length, counts 0 (2 ^ 64 - 1) (by decide)⟩

end Returns

end Foculus.Sync.Apportionment

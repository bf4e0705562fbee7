import Mathlib.Algebra.BigOperators.Group.Finset.Piecewise
import Mathlib.Data.Fintype.Basic
import Mathlib.Logic.Equiv.Basic
import Mathlib.Tactic.Abel

namespace Foculus.Data

/-! # The marginals of a cooperative game

A game gives every coalition a value.  Along an order a player's share is what
the value gains when the player joins those who came before, and a player's sum
adds the shares of several orders up.
-/

section Games

variable {ι G : Type*} [DecidableEq ι] {game : Finset ι → G} {player other : ι}

theorem image_swap_of_notMem {coalition : Finset ι} (absent : player ∉ coalition)
    (otherAbsent : other ∉ coalition) : coalition.image (Equiv.swap player other) = coalition := by
  have fixed : ∀ member ∈ coalition, Equiv.swap player other member = id member := by
    intro member held
    exact Equiv.swap_apply_of_ne_of_ne (fun same => absent (same ▸ held))
      fun same => otherAbsent (same ▸ held)
  rw [Finset.image_congr fixed, Finset.image_id]

/-- Players that add the same to every coalition without them can be exchanged. -/
theorem game_swap (alike : ∀ coalition, player ∉ coalition → other ∉ coalition →
      game (insert player coalition) = game (insert other coalition)) (coalition : Finset ι) :
    game (coalition.image (Equiv.swap player other)) = game coalition := by
  by_cases held : player ∈ coalition
  · obtain ⟨rest, absent, rfl⟩ : ∃ rest, player ∉ rest ∧ coalition = insert player rest :=
      ⟨_, Finset.notMem_erase _ _, (Finset.insert_erase held).symm⟩
    rw [Finset.image_insert, Equiv.swap_apply_left]
    by_cases otherHeld : other ∈ rest
    · obtain ⟨rest, otherAbsent, rfl⟩ : ∃ fewer, other ∉ fewer ∧ rest = insert other fewer :=
        ⟨_, Finset.notMem_erase _ _, (Finset.insert_erase otherHeld).symm⟩
      have absent : player ∉ rest := fun member => absent (Finset.mem_insert_of_mem member)
      rw [Finset.image_insert, Equiv.swap_apply_right, image_swap_of_notMem absent otherAbsent,
        Finset.insert_comm]
    · rw [image_swap_of_notMem absent otherHeld, alike rest absent otherHeld]
  · by_cases otherHeld : other ∈ coalition
    · obtain ⟨rest, otherAbsent, rfl⟩ : ∃ rest, other ∉ rest ∧ coalition = insert other rest :=
        ⟨_, Finset.notMem_erase _ _, (Finset.insert_erase otherHeld).symm⟩
      have absent : player ∉ rest := fun member => held (Finset.mem_insert_of_mem member)
      rw [Finset.image_insert, Equiv.swap_apply_right, image_swap_of_notMem absent otherAbsent,
        alike rest absent otherAbsent]
    · rw [image_swap_of_notMem held otherHeld]

variable [AddCommGroup G]

/-- What a player adds along an order of those who join the ones before. -/
def share (game : Finset ι → G) : Finset ι → List ι → ι → G
  | _, [], _ => 0
  | before, first :: rest, player =>
      if first = player then game (insert first before) - game before
      else share game (insert first before) rest player

def shareSum (game : Finset ι → G) (orders : List (List ι)) (player : ι) : G :=
  (orders.map fun order => share game ∅ order player).sum

variable {before : Finset ι} {order : List ι} {orders : List (List ι)}

theorem share_of_notMem (absent : player ∉ order) : share game before order player = 0 := by
  induction order generalizing before with
  | nil => rfl
  | cons first rest ih =>
      rw [List.mem_cons, not_or] at absent
      rw [share, if_neg (Ne.symm absent.1), ih absent.2]

/-- The shares along one order telescope. -/
theorem sum_share [Fintype ι] (distinct : order.Nodup) :
    ∑ player, share game before order player = game (before ∪ order.toFinset) - game before := by
  induction order generalizing before with
  | nil => simp [share]
  | cons first rest ih =>
      obtain ⟨fresh, distinct⟩ := List.nodup_cons.mp distinct
      have joined : share game before (first :: rest) =
          fun player => (if first = player then game (insert first before) - game before else 0) +
            share game (insert first before) rest player := by
        funext player
        rw [share]
        split_ifs with same
        · rw [← same, share_of_notMem fresh, add_zero]
        · rw [zero_add]
      rw [joined, Finset.sum_add_distrib, ih distinct, Finset.sum_ite_eq Finset.univ first,
        if_pos (Finset.mem_univ _), List.toFinset_cons, Finset.union_insert, Finset.insert_union]
      abel

theorem share_null (null : ∀ coalition, player ∉ coalition →
      game (insert player coalition) = game coalition) (absent : player ∉ before) :
    share game before order player = 0 := by
  induction order generalizing before with
  | nil => rfl
  | cons first rest ih =>
      rw [share]
      split_ifs with same
      · rw [same, null before absent, sub_self]
      · exact ih (by rw [Finset.mem_insert, not_or]; exact ⟨Ne.symm same, absent⟩)

/-- Renaming the players renames the shares. -/
theorem share_map (rename : ι ≃ ι)
    (unchanged : ∀ coalition, game (coalition.image rename) = game coalition) :
    share game (before.image rename) (order.map rename) (rename player) =
      share game before order player := by
  induction order generalizing before with
  | nil => rfl
  | cons first rest ih =>
      rw [List.map_cons, share, share, ← Finset.image_insert, ih, unchanged, unchanged]
      simp only [rename.apply_eq_iff_eq]

theorem shareSum_efficient [Fintype ι]
    (complete : ∀ order ∈ orders, order.Nodup ∧ ∀ player, player ∈ order) :
    ∑ player, shareSum game orders player = orders.length • (game Finset.univ - game ∅) := by
  induction orders with
  | nil => simp [shareSum]
  | cons order rest ih =>
      obtain ⟨distinct, all⟩ := complete order (.head _)
      have everyone : order.toFinset = Finset.univ := by
        ext player
        simp [all player]
      have later := ih fun order member => complete order (.tail _ member)
      simp only [shareSum] at later
      simp only [shareSum, List.map_cons, List.sum_cons, Finset.sum_add_distrib]
      rw [sum_share distinct, everyone, Finset.empty_union, later, List.length_cons, succ_nsmul']

theorem shareSum_null (null : ∀ coalition, player ∉ coalition →
      game (insert player coalition) = game coalition) :
    shareSum game orders player = 0 := by
  rw [shareSum, List.map_congr_left fun order _ => share_null null (Finset.notMem_empty _)]
  simp

/-- The orders are the same ones when two players trade places in each. -/
theorem shareSum_symmetric
    (traded : (orders.map (List.map (Equiv.swap player other))).Perm orders)
    (alike : ∀ coalition, player ∉ coalition → other ∉ coalition →
      game (insert player coalition) = game (insert other coalition)) :
    shareSum game orders player = shareSum game orders other := by
  rw [shareSum, shareSum, ← (traded.map _).sum_eq, List.map_map]
  congr 1
  apply List.map_congr_left
  intro order _
  have renamed : share game (Finset.image _ ∅) (order.map (Equiv.swap player other))
      (Equiv.swap player other other) = share game ∅ order other :=
    share_map _ (game_swap alike)
  rwa [Finset.image_empty, Equiv.swap_apply_right] at renamed

end Games

end Foculus.Data

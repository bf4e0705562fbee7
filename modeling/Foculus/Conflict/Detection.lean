import Foculus.Chain.ContentId
import Foculus.Conflict.Index
import Mathlib.Data.List.Perm.Subperm

namespace Foculus.Conflict

open Chain Data

/-! When equivocations are detected.

Two signals of one neuron at one step are told apart by their content ids.
Where the ids cannot tell them apart the index keeps one of the two and reports
no conflict.
-/

/-- The content ids tell the two signals apart, and the index, whatever else it
observes, holds both of two different signals of one neuron at one step. -/
structure Distinguished (hemera : Hemera) (first second : Signal) : Prop where
  sameContent : first.contentId hemera = second.contentId hemera → first.SameContent second
  members : first.neuron = second.neuron → first.step = second.step →
    ¬ first.SameContent second → ∀ signals, first ∈ signals → second ∈ signals →
      ∃ group, (ConflictIndex.observeAll hemera signals).group (equivocationKey hemera first) =
          some group ∧
        first.contentId hemera ∈ group.memberMap ∧ second.contentId hemera ∈ group.memberMap ∧
        first.contentId hemera ≠ second.contentId hemera ∧
        equivocationKey hemera first ∈ (ConflictIndex.observeAll hemera signals).conflicts

theorem size_gt_one {members : Std.ExtTreeMap Particle Signal} {first second : Particle}
    (firstMember : first ∈ members) (secondMember : second ∈ members) (different : first ≠ second) :
    members.size > 1 := by
  have distinct : [first, second].Nodup := by simpa using different
  have contained : [first, second] ⊆ members.keys := by
    intro id member
    rcases List.mem_pair.mp member with rfl | rfl
    · exact Std.ExtTreeMap.mem_keys.mpr firstMember
    · exact Std.ExtTreeMap.mem_keys.mpr secondMember
  have bound := (List.subperm_of_subset distinct contained).length_le
  rw [Std.ExtTreeMap.length_keys] at bound
  exact bound

theorem distinguished_of_ids {hemera : Hemera} {first second : Signal}
    (told : first.contentId hemera = second.contentId hemera → first.SameContent second) :
    Distinguished hemera first second where
  sameContent := told
  members neuron step different signals firstSeen secondSeen := by
    have ids : first.contentId hemera ≠ second.contentId hemera := fun same =>
      different (told same)
    have keys : equivocationKey hemera second = equivocationKey hemera first := by
      unfold equivocationKey
      rw [neuron, step]
    obtain ⟨_, firstHeld⟩ := ConflictIndex.held_complete hemera firstSeen
    obtain ⟨_, secondHeld⟩ := ConflictIndex.held_complete hemera secondSeen
    rw [keys] at secondHeld
    obtain ⟨members, group, firstFound⟩ := ConflictIndex.held_eq_some_iff.mp firstHeld
    obtain ⟨others, sameGroup, secondFound⟩ := ConflictIndex.held_eq_some_iff.mp secondHeld
    obtain rfl : members = others := Option.some.inj (group.symm.trans sameGroup)
    have firstMember : first.contentId hemera ∈ members :=
      Std.ExtTreeMap.mem_iff_isSome_getElem?.mpr (by rw [firstFound]; rfl)
    have secondMember : second.contentId hemera ∈ members :=
      Std.ExtTreeMap.mem_iff_isSome_getElem?.mpr (by rw [secondFound]; rfl)
    refine ⟨⟨_, members⟩, by rw [ConflictIndex.group, group]; rfl, firstMember, secondMember, ids, ?_⟩
    exact ConflictIndex.mem_conflicts_iff.mpr
      ⟨members, group, size_gt_one firstMember secondMember ids⟩

/-- All signals of two layouts are distinguished exactly when the layouts are
the same or fit no common buffer. -/
theorem distinguished_iff_layouts (hemera : Hemera) (left right : Layout) :
    (∀ first second : Signal, first.layout = left → second.layout = right →
      hemera.CollisionFree {first.contentBytes, second.contentBytes} →
      Distinguished hemera first second) ↔
    left = right ∨ ¬ left.pattern.Compatible right.pattern := by
  constructor
  · intro distinguished
    by_contra ambiguous
    obtain ⟨different, compatible⟩ := not_or.mp ambiguous
    obtain ⟨first, second, firstLayout, secondLayout, same⟩ :=
      (Signal.exists_contentBytes_eq_iff left right).mpr (not_not.mp compatible)
    have free : hemera.CollisionFree {first.contentBytes, second.contentBytes} := by
      rw [same, Set.pair_eq_singleton]
      exact Set.injOn_singleton _ _
    have told := (distinguished first second firstLayout secondLayout free).sameContent
      (congrArg hemera.hash same)
    exact different (firstLayout.symm.trans (told.layout.trans secondLayout))
  · intro condition first second firstLayout secondLayout free
    refine distinguished_of_ids fun ids => ?_
    have same : first.contentBytes = second.contentBytes := free.pair ids
    rcases condition with layouts | incompatible
    · have layouts : first.layout = second.layout :=
        firstLayout.trans (layouts.trans secondLayout.symm)
      exact Signal.sameContent_of_contentBytes layouts same
    · exact absurd ((Signal.exists_contentBytes_eq_iff left right).mp
        ⟨first, second, firstLayout, secondLayout, same⟩) incompatible

def shiftAndSpend : Signal where
  neuron := Particle.zero
  network := selfNetwork
  links := []
  deltaPi := [(Particle.zero, 1)]
  boxMoves := [⟨Particle.zero, none⟩]
  prev := Particle.zero
  step := 0
  height := 0

def spendAndCreate : Signal :=
  { shiftAndSpend with deltaPi := [], boxMoves := [⟨Particle.zero, some (Particle.zero, 0)⟩] }

/-- Two different signals of one neuron at one step with one content id, on
which the hash does not collide: the index sees no conflict. -/
theorem equivocation_undetected :
    Hemera.truncating.CollisionFree {shiftAndSpend.contentBytes, spendAndCreate.contentBytes} ∧
      shiftAndSpend.contentId .truncating = spendAndCreate.contentId .truncating ∧
      shiftAndSpend.neuron = spendAndCreate.neuron ∧ shiftAndSpend.step = spendAndCreate.step ∧
      shiftAndSpend.deltaPi ≠ spendAndCreate.deltaPi ∧
      shiftAndSpend.boxMoves ≠ spendAndCreate.boxMoves ∧
      (ConflictIndex.observeAll .truncating [shiftAndSpend, spendAndCreate]).conflicts = [] := by
  have same : shiftAndSpend.contentBytes = spendAndCreate.contentBytes := by decide +kernel
  refine ⟨?_, congrArg Hemera.truncating.hash same, rfl, rfl, by decide, by decide +kernel,
    by decide +kernel⟩
  rw [same, Set.pair_eq_singleton]
  exact Set.injOn_singleton _ _

end Foculus.Conflict

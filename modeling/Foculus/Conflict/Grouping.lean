import Foculus.Conflict.Detection
import Mathlib.Data.List.Nodup

namespace Foculus.Conflict

open Chain

/-! Which signals end up in one conflict group.

The only conflict key of a signal is its equivocation key; nullifiers and other
resources are no keys yet.
-/

def equivocationBytes (sig : Signal) : List UInt8 := sig.neuron.toList ++ u64Bytes sig.step

theorem equivocationBytes_inj {first second : Signal}
    (same : equivocationBytes first = equivocationBytes second) :
    first.neuron = second.neuron ∧ first.step = second.step := by
  obtain ⟨neuron, step⟩ := List.append_inj same (by simp)
  exact ⟨Vector.toList_inj.mp neuron, u64Bytes_inj step⟩

theorem equivocationKey_eq_iff {hemera : Hemera} {signals : List Signal} {first second : Signal}
    (free : hemera.CollisionFree {bytes | ∃ sig ∈ signals, equivocationBytes sig = bytes})
    (firstSeen : first ∈ signals) (secondSeen : second ∈ signals) :
    equivocationKey hemera first = equivocationKey hemera second ↔
      first.neuron = second.neuron ∧ first.step = second.step := by
  constructor
  · intro same
    exact equivocationBytes_inj (free ⟨first, firstSeen, rfl⟩ ⟨second, secondSeen, rfl⟩ same)
  · intro same
    rw [equivocationKey, equivocationKey, same.1, same.2]

/-- Both signals are members of one group that is reported as a conflict. -/
def InOneGroup (index : ConflictIndex) (first second : Signal) : Prop :=
  ∃ key ∈ index.conflicts, ∃ group, index.group key = some group ∧
    first ∈ group.members ∧ second ∈ group.members

section Observed

variable {hemera : Hemera} {signals : List Signal} {first second sig : Signal}

theorem mem_group_iff {key : ConflictKey} {group : ConflictGroup}
    (found : (ConflictIndex.observeAll hemera signals).group key = some group) :
    sig ∈ group.members ↔
      (ConflictIndex.observeAll hemera signals).held key (sig.contentId hemera) = some sig := by
  obtain ⟨members, groupFound, rfl⟩ := Option.map_eq_some_iff.mp found
  have slots (id : Particle) (other : Signal) : members[id]? = some other ↔
      (ConflictIndex.observeAll hemera signals).held key id = some other := by
    rw [ConflictIndex.held, groupFound, Option.bind_some]
  simp only [ConflictGroup.members, List.mem_map, Prod.exists, exists_eq_right,
    Std.ExtTreeMap.mem_toList_iff_getElem?_eq_some]
  constructor
  · intro stored
    obtain ⟨id, stored⟩ := stored
    have held := (slots id sig).mp stored
    rwa [(ConflictIndex.held_sound held).2.2]
  · exact fun held => ⟨_, (slots _ sig).mpr held⟩

/-- A signal whose content id is its own is a member under its key. -/
theorem held_own (distinct : (signals.map (Signal.contentId hemera)).Nodup) (seen : sig ∈ signals) :
    (ConflictIndex.observeAll hemera signals).held (equivocationKey hemera sig)
      (sig.contentId hemera) = some sig := by
  obtain ⟨stored, held⟩ := ConflictIndex.held_complete hemera seen
  obtain ⟨member, _, same⟩ := ConflictIndex.held_sound held
  rw [held, List.inj_on_of_nodup_map distinct member seen same]

/-- Among signals with distinct content ids, in whatever order they are
observed, two are in one group if and only if they are of one neuron at one step. -/
theorem inOneGroup_iff (distinct : (signals.map (Signal.contentId hemera)).Nodup)
    (free : hemera.CollisionFree {bytes | ∃ sig ∈ signals, equivocationBytes sig = bytes})
    (firstSeen : first ∈ signals) (secondSeen : second ∈ signals) (different : first ≠ second) :
    InOneGroup (ConflictIndex.observeAll hemera signals) first second ↔
      first.neuron = second.neuron ∧ first.step = second.step := by
  rw [← equivocationKey_eq_iff free firstSeen secondSeen]
  constructor
  · intro together
    obtain ⟨key, _, group, found, firstMember, secondMember⟩ := together
    have firstKey := (ConflictIndex.held_sound ((mem_group_iff found).mp firstMember)).2.1
    have secondKey := (ConflictIndex.held_sound ((mem_group_iff found).mp secondMember)).2.1
    rw [firstKey, secondKey]
  · intro keys
    have firstHeld := held_own distinct firstSeen
    have secondHeld := held_own distinct secondSeen
    rw [← keys] at secondHeld
    have ids : first.contentId hemera ≠ second.contentId hemera := fun same =>
      different (List.inj_on_of_nodup_map distinct firstSeen secondSeen same)
    obtain ⟨members, groupFound, firstSlot⟩ := ConflictIndex.held_eq_some_iff.mp firstHeld
    have group : (ConflictIndex.observeAll hemera signals).group (equivocationKey hemera first) =
        some ⟨equivocationKey hemera first, members⟩ := by rw [ConflictIndex.group, groupFound]; rfl
    have firstMember := (mem_group_iff group).mpr firstHeld
    have secondMember := (mem_group_iff group).mpr secondHeld
    refine ⟨_, ?_, _, group, firstMember, secondMember⟩
    have secondSlot : members[second.contentId hemera]? = some second := by
      rwa [ConflictIndex.held, groupFound] at secondHeld
    exact ConflictIndex.mem_conflicts_iff.mpr ⟨members, groupFound, size_gt_one
      (Std.ExtTreeMap.mem_iff_isSome_getElem?.mpr (by rw [firstSlot]; rfl))
      (Std.ExtTreeMap.mem_iff_isSome_getElem?.mpr (by rw [secondSlot]; rfl)) ids⟩

end Observed

def SharesNullifier (first second : Signal) : Prop :=
  ∃ move ∈ first.boxMoves, ∃ other ∈ second.boxMoves, move.nullifier = other.nullifier

/-- Two authors spend the same output. -/
def spendOnce : Signal where
  neuron := Vector.replicate 32 1
  network := selfNetwork
  links := []
  deltaPi := []
  boxMoves := [⟨Particle.padded [7], none⟩]
  prev := Particle.zero
  step := 0
  height := 0

def spendTwice : Signal :=
  { spendOnce with
    neuron := Vector.replicate 32 2
    boxMoves := [⟨Particle.padded [7], some (Particle.padded [8], 9)⟩] }

theorem spends_free : Hemera.truncating.CollisionFree
    {bytes | ∃ sig ∈ [spendOnce, spendTwice], equivocationBytes sig = bytes} := by
  have hashes : Hemera.truncating.hash (equivocationBytes spendOnce) ≠
      Hemera.truncating.hash (equivocationBytes spendTwice) := by decide +kernel
  intro left leftMember right rightMember same
  obtain ⟨first, firstMember, rfl⟩ := leftMember
  obtain ⟨second, secondMember, rfl⟩ := rightMember
  rcases List.mem_pair.mp firstMember with rfl | rfl <;>
    rcases List.mem_pair.mp secondMember with rfl | rfl
  · rfl
  · exact absurd same hashes
  · exact absurd same.symm hashes
  · rfl

theorem spends_distinct :
    ([spendOnce, spendTwice].map (Signal.contentId Hemera.truncating)).Nodup := by decide +kernel

/-- A shared nullifier of two authors does not make a conflict. -/
theorem doubleSpend_not_grouped :
    ([spendOnce, spendTwice].map (Signal.contentId Hemera.truncating)).Nodup ∧
      Hemera.truncating.CollisionFree
        {bytes | ∃ sig ∈ [spendOnce, spendTwice], equivocationBytes sig = bytes} ∧
      SharesNullifier spendOnce spendTwice ∧
      ¬ InOneGroup (ConflictIndex.observeAll .truncating [spendOnce, spendTwice])
        spendOnce spendTwice := by
  refine ⟨spends_distinct, spends_free, ?_, ?_⟩
  · exact ⟨_, List.mem_singleton_self _, _, List.mem_singleton_self _, rfl⟩
  · intro together
    obtain ⟨key, conflict, _⟩ := together
    have none_ : (ConflictIndex.observeAll .truncating [spendOnce, spendTwice]).conflicts = [] := by
      decide +kernel
    rw [none_] at conflict
    cases conflict

def equivocated : Signal := { spendTwice with neuron := spendOnce.neuron }

theorem inOneGroup_iff_sample :
    InOneGroup (ConflictIndex.observeAll .truncating [spendOnce, equivocated])
        spendOnce equivocated ↔
      spendOnce.neuron = equivocated.neuron ∧ spendOnce.step = equivocated.step := by
  refine inOneGroup_iff (by decide +kernel) ?_ (by simp) (by simp) (by decide +kernel)
  intro left leftMember right rightMember _
  obtain ⟨first, firstMember, rfl⟩ := leftMember
  obtain ⟨second, secondMember, rfl⟩ := rightMember
  rcases List.mem_pair.mp firstMember with rfl | rfl <;>
    rcases List.mem_pair.mp secondMember with rfl | rfl <;> rfl

end Foculus.Conflict

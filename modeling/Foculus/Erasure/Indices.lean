import Foculus.Erasure.Coding

namespace Foculus.Erasure

open Data

/-! # The index checks

`is_complete` and the admission loop of the general path mark the indices that
they meet.  Both accept the shards of `n` different positions and no others. -/

/-- The indices are those of different shards of an `n`-shard code. -/
def Distinct (n : Nat) (shards : List Shard) : Prop :=
  (∀ shard ∈ shards, shard.index < n) ∧ (shards.map Shard.index).Nodup

section Indices

variable {n groups : Nat} {shards : List Shard}

theorem marked_getD {seen : List Bool} {index : Nat} (inside : index < seen.length) (other : Nat) :
    (seen.set index true).getD other false = false ↔
      other ≠ index ∧ seen.getD other false = false := by
  rw [List.getD_eq_getElem?_getD, List.getElem?_set]
  by_cases same : index = other
  · subst same
    simp [inside]
  · simp [same, Ne.symm same, List.getD_eq_getElem?_getD]

theorem isCompleteFrom_cons {seen : List Bool} {shard : Shard} {rest : List Shard} :
    isCompleteFrom n seen (shard :: rest) = true ↔ shard.index < n ∧
      seen.getD shard.index false = false ∧
      isCompleteFrom n (seen.set shard.index true) rest = true := by
  rw [isCompleteFrom]
  split_ifs with refused
  · rw [Bool.or_eq_true, decide_eq_true_eq] at refused
    simp only [false_iff]
    rintro ⟨bound, fresh, _⟩
    rcases refused with outside | marked
    · omega
    · exact Bool.false_ne_true (fresh.symm.trans marked)
  · rw [Bool.or_eq_true, decide_eq_true_eq, not_or, Nat.not_le, Bool.not_eq_true] at refused
    constructor
    · exact fun rest => ⟨refused.1, refused.2, rest⟩
    · exact fun all => all.2.2

theorem distinct_cons {shard : Shard} {rest : List Shard} :
    Distinct n (shard :: rest) ↔ shard.index < n ∧ (∀ other ∈ rest, other.index ≠ shard.index) ∧
      Distinct n rest := by
  simp only [Distinct, List.forall_mem_cons, List.map_cons, List.nodup_cons, List.mem_map,
    not_exists, not_and]
  constructor
  · rintro ⟨⟨bound, bounds⟩, absent, distinct⟩
    exact ⟨bound, absent, bounds, distinct⟩
  · rintro ⟨bound, absent, bounds, distinct⟩
    exact ⟨⟨bound, bounds⟩, absent, distinct⟩

/-- The loop marks the indices that it meets and stops at a mark. -/
theorem isCompleteFrom_iff {seen : List Bool} (width : seen.length = n) :
    isCompleteFrom n seen shards = true ↔
      Distinct n shards ∧ ∀ shard ∈ shards, seen.getD shard.index false = false := by
  induction shards generalizing seen with
  | nil => simp [isCompleteFrom, Distinct]
  | cons shard rest ih =>
      have marked : (seen.set shard.index true).length = n := by rwa [List.length_set]
      rw [isCompleteFrom_cons, ih marked, distinct_cons, List.forall_mem_cons]
      constructor
      · rintro ⟨bound, fresh, distinct, unmarked⟩
        have apart := fun other member => (marked_getD (width ▸ bound) _).mp (unmarked other member)
        exact ⟨⟨bound, fun other member => (apart other member).1, distinct⟩, fresh,
          fun other member => (apart other member).2⟩
      · rintro ⟨⟨bound, apart, distinct⟩, fresh, unmarked⟩
        exact ⟨bound, fresh, distinct, fun other member =>
          (marked_getD (width ▸ bound) _).mpr ⟨apart other member, unmarked other member⟩⟩

theorem isCompleteFrom_start :
    isCompleteFrom n (List.replicate n false) shards = true ↔ Distinct n shards := by
  rw [isCompleteFrom_iff List.length_replicate]
  refine and_iff_left fun shard _ => ?_
  simp [List.getD_eq_getElem?_getD, List.getElem?_replicate]
  split <;> rfl

theorem isComplete_iff : isComplete shards n = true ↔ shards.length = n ∧ Distinct n shards := by
  rw [isComplete, Bool.and_eq_true, beq_iff_eq, isCompleteFrom_start]

/-- The admission loop makes the same checks, and compares the numbers of groups. -/
theorem checkAvailable_eq_ok_iff {seen : List Bool} :
    checkAvailable n groups seen shards = .ok () ↔
      isCompleteFrom n seen shards = true ∧ ∀ shard ∈ shards, shard.data.length = groups := by
  induction shards generalizing seen with
  | nil => simp [checkAvailable, isCompleteFrom]
  | cons shard rest ih =>
      rw [isCompleteFrom_cons, List.forall_mem_cons]
      simp only [checkAvailable]
      split_ifs with outside marked ragged
      · simp [Nat.not_lt.mpr outside]
      · refine iff_of_false (by simp) ?_
        rintro ⟨⟨_, fresh, _⟩, _⟩
        exact Bool.false_ne_true (fresh.symm.trans marked)
      · simp [ragged]
      · rw [Nat.not_le] at outside
        rw [Bool.not_eq_true] at marked
        rw [not_not] at ragged
        rw [ih]
        constructor
        · rintro ⟨distinct, level⟩
          exact ⟨⟨outside, marked, distinct⟩, ragged, level⟩
        · rintro ⟨⟨_, _, distinct⟩, _, level⟩
          exact ⟨distinct, level⟩

theorem checkAvailable_ne_panic {seen : List Bool} :
    checkAvailable n groups seen shards ≠ .panic := by
  induction shards generalizing seen with
  | nil => simp [checkAvailable]
  | cons shard rest ih =>
      simp only [checkAvailable]
      split_ifs
      · simp
      · simp
      · simp
      · exact ih

end Indices

end Foculus.Erasure

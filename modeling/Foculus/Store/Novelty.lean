import Foculus.Store.LiveCount
import Foculus.Store.MergeOrder

namespace Foculus.Store

open Data

/-! # What a validated merge brings

A merge changes a registry exactly when, at its start, one of the entries would get
in and has a larger stamp than the one that is held.  The number of live files may
stay the same while it does.
-/

namespace GSet

variable {hemera : Hemera} {now : UInt64} {entry : FileEntry} {registry after : GSet}
  {readings : List (FileEntry × UInt64)} {counts : Nat × Nat}

/-- The entry passes `validate` at the clock reading, has its place, and is newer than
what is held. -/
def Novel (hemera : Hemera) (registry : GSet) (reading : FileEntry × UInt64) : Prop :=
  reading.1.validateAt hemera reading.2 = .ok () ∧
    (registry.files.size < maxRegistryEntries ∨ registry.files.contains reading.1.name = true) ∧
    registry.rank reading.1.name < (reading.1.stamp : WithBot Stamp)

theorem validatedInsertAt_of_novel (novel : Novel hemera registry (entry, now)) :
    registry.validatedInsertAt hemera now entry = .ok (registry.lwwInsert entry) := by
  obtain ⟨valid, room, -⟩ := novel
  rw [validatedInsertAt, valid, Outcome.ok_bind, if_neg]
  rw [Bool.and_eq_true, decide_eq_true_eq, not_and_or, not_le]
  exact room.imp id fun held => by rw [held]; decide

theorem lwwInsert_rank_self (registry : GSet) (entry : FileEntry) :
    (entry.stamp : WithBot Stamp) ≤ (registry.lwwInsert entry).rank entry.name := by
  rw [lwwInsert_rank, if_pos rfl]
  exact le_sup_right

/-- An accepted entry that is not new is dropped. -/
theorem validatedInsertAt_of_stale (stale : ¬ Novel hemera registry (entry, now))
    (inserted : registry.validatedInsertAt hemera now entry = .ok after) : after = registry := by
  cases validatedInsertAt_ok inserted
  rw [validatedInsertAt] at inserted
  cases checked : entry.validateAt hemera now with
  | err error => simp [checked] at inserted
  | panic => simp [checked] at inserted
  | ok _ =>
      rw [checked, Outcome.ok_bind] at inserted
      split_ifs at inserted with full
      have room : registry.files.size < maxRegistryEntries ∨
          registry.files.contains entry.name = true := by
        rw [Bool.and_eq_true, decide_eq_true_eq, not_and_or, not_le] at full
        exact full.imp id fun held => by simpa using held
      apply eq_of_getElem?
      intro name
      rw [lwwInsert_getElem?, if_neg]
      rintro ⟨rfl, newer⟩
      exact stale ⟨checked, room, newer⟩

theorem validatedMergeAt_evolves (readings : List (FileEntry × UInt64)) (counts : Nat × Nat)
    (registry : GSet) : registry.Evolves (validatedMergeAt hemera readings counts registry).2 := by
  induction readings generalizing registry counts with
  | nil => exact .refl _
  | cons reading rest ih =>
      simp only [validatedMergeAt]
      cases inserted : registry.validatedInsertAt hemera reading.2 reading.1 with
      | ok next =>
          rw [validatedInsertAt_ok inserted]
          exact (lwwInsert_evolves registry reading.1).trans (ih _ _)
      | err error => exact ih _ _
      | panic => exact .refl _

theorem validatedMergeAt_of_stale (stale : ∀ reading ∈ readings, ¬ Novel hemera registry reading) :
    (validatedMergeAt hemera readings counts registry).2 = registry := by
  induction readings generalizing counts with
  | nil => rfl
  | cons reading rest ih =>
      have later : ∀ counts, (validatedMergeAt hemera rest counts registry).2 = registry :=
        fun _ => ih fun other member => stale other (.tail _ member)
      simp only [validatedMergeAt]
      cases inserted : registry.validatedInsertAt hemera reading.2 reading.1 with
      | ok next =>
          rw [validatedInsertAt_of_stale (stale reading (.head _)) inserted]
          exact later _
      | err error => exact later _
      | panic => rfl

theorem validatedMergeAt_of_novel {reading : FileEntry × UInt64} {result : Nat × Nat}
    (member : reading ∈ readings) (novel : Novel hemera registry reading)
    (merged : validatedMergeAt hemera readings counts registry = (.ok result, after)) :
    after ≠ registry := by
  induction readings generalizing registry counts with
  | nil => cases member
  | cons first rest ih =>
      simp only [validatedMergeAt] at merged
      cases inserted : registry.validatedInsertAt hemera first.2 first.1 with
      | panic =>
          rw [inserted] at merged
          cases merged
      | err error =>
          rw [inserted] at merged
          cases member with
          | head => simp [validatedInsertAt_of_novel novel] at inserted
          | tail _ later => exact ih later novel merged
      | ok next =>
          rw [inserted] at merged
          simp only at merged
          have evolved : next.Evolves
              (validatedMergeAt hemera rest (counts.1 + 1, counts.2) next).2 :=
            validatedMergeAt_evolves rest _ next
          rw [merged] at evolved
          by_cases same : next = registry
          · subst same
            cases member with
            | tail _ later => exact ih later novel merged
            | head =>
                have dropped := validatedInsertAt_ok inserted
                have raised := lwwInsert_rank_self next reading.1
                rw [← dropped] at raised
                exact absurd novel.2.2 (not_lt.mpr raised)
          · rintro rfl
            refine same (evolved.antisymm ?_)
            rw [validatedInsertAt_ok inserted]
            exact lwwInsert_evolves _ _

/-- A merge that returns has changed the registry when something was new. -/
theorem validatedMergeAt_eq_iff {result : Nat × Nat}
    (merged : validatedMergeAt hemera readings counts registry = (.ok result, after)) :
    after = registry ↔ ∀ reading ∈ readings, ¬ Novel hemera registry reading := by
  constructor
  · intro same reading member novel
    exact validatedMergeAt_of_novel member novel merged same
  · intro stale
    have kept : (validatedMergeAt hemera readings counts registry).2 = registry :=
      validatedMergeAt_of_stale stale
    rwa [merged] at kept

section Accepted

/-- The entries that a validated merge takes over, in the order of the walk. -/
def accepted (hemera : Hemera) : List (FileEntry × UInt64) → GSet → List FileEntry
  | [], _ => []
  | (entry, now) :: rest, registry =>
      match registry.validatedInsertAt hemera now entry with
      | .ok next => entry :: accepted hemera rest next
      | .err _ => accepted hemera rest registry
      | .panic => []

/-- A validated merge, also one that aborts, is a plain merge of what it accepts. -/
theorem validatedMergeAt_eq_merge (readings : List (FileEntry × UInt64)) (counts : Nat × Nat)
    (registry : GSet) : (validatedMergeAt hemera readings counts registry).2 =
      registry.merge (accepted hemera readings registry) := by
  induction readings generalizing registry counts with
  | nil => rfl
  | cons reading rest ih =>
      simp only [validatedMergeAt, accepted]
      cases inserted : registry.validatedInsertAt hemera reading.2 reading.1 with
      | ok next =>
          rw [merge_cons, ← validatedInsertAt_ok inserted]
          exact ih _ _
      | err error => exact ih _ _
      | panic => rfl

theorem accepted_sublist (readings : List (FileEntry × UInt64)) (registry : GSet) :
    (accepted hemera readings registry).Sublist (readings.map Prod.fst) := by
  induction readings generalizing registry with
  | nil => exact .slnil
  | cons reading rest ih =>
      simp only [accepted, List.map_cons]
      cases registry.validatedInsertAt hemera reading.2 reading.1 with
      | ok next => exact (ih next).cons_cons _
      | err error => exact (ih registry).cons _
      | panic => exact List.nil_sublist _

/-- A merge that rejects nothing takes over all entries. -/
theorem accepted_of_none_rejected {total rejected : Nat}
    (merged : (validatedMergeAt hemera readings counts registry).1 = .ok (total, rejected)) :
    counts.2 ≤ rejected ∧
      (rejected = counts.2 → accepted hemera readings registry = readings.map Prod.fst) := by
  induction readings generalizing registry counts with
  | nil =>
      cases merged
      exact ⟨le_rfl, fun _ => rfl⟩
  | cons reading rest ih =>
      simp only [validatedMergeAt, accepted, List.map_cons] at merged ⊢
      cases inserted : registry.validatedInsertAt hemera reading.2 reading.1 with
      | ok next =>
          rw [inserted] at merged
          obtain ⟨more, all⟩ := ih merged
          exact ⟨more, fun none => congrArg _ (all none)⟩
      | err error =>
          rw [inserted] at merged
          obtain ⟨more, -⟩ := ih merged
          dsimp only at more
          exact ⟨by omega, fun none => absurd none (by omega)⟩
      | panic =>
          rw [inserted] at merged
          cases merged

end Accepted

end GSet

end Foculus.Store

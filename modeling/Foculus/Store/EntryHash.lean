import Foculus.Store.Registry

namespace Foculus.Store

/-! What an entry hash commits to.

`compute_hash` covers the name, the shard hashes, the timestamp and the device
and writes them one after the other without separators.  The hash therefore
fixes the four fields as soon as it is known where the name and each shard hash
end, and says nothing about the other fields.
-/

namespace FileEntry

def covered (entry : FileEntry) : String × List String × UInt64 × String :=
  (entry.name, entry.shardHashes, entry.timestamp, entry.deviceId)

def hashed (entry : FileEntry) : List UInt8 :=
  preimage entry.name entry.shardHashes entry.timestamp entry.deviceId

/-- The name and the shard hashes end at the same places in the two buffers. -/
def Aligned (left right : FileEntry) : Prop :=
  (strBytes left.name).length = (strBytes right.name).length ∧
    left.shardHashes.map (fun text => (strBytes text).length) =
      right.shardHashes.map (fun text => (strBytes text).length)

instance (left right : FileEntry) : Decidable (Aligned left right) := by
  unfold Aligned
  infer_instance

theorem flatMap_strBytes_inj {left right : List String}
    (lengths : left.map (fun text => (strBytes text).length) =
      right.map fun text => (strBytes text).length)
    (same : left.flatMap strBytes = right.flatMap strBytes) : left = right := by
  induction left generalizing right with
  | nil =>
      cases right with
      | nil => rfl
      | cons text rest => cases lengths
  | cons text rest ih =>
      cases right with
      | nil => cases lengths
      | cons other others =>
          obtain ⟨headLength, tailLengths⟩ := List.cons.inj lengths
          rw [List.flatMap_cons, List.flatMap_cons] at same
          obtain ⟨heads, tails⟩ := List.append_inj same headLength
          rw [strBytes_inj heads, ih tailLengths tails]

theorem hashed_inj {left right : FileEntry} (aligned : Aligned left right) :
    left.hashed = right.hashed ↔ left.covered = right.covered := by
  constructor
  · intro same
    obtain ⟨nameLength, hashLengths⟩ := aligned
    unfold hashed preimage at same
    have listLength : (left.shardHashes.flatMap strBytes).length =
        (right.shardHashes.flatMap strBytes).length := by
      rw [List.length_flatMap, List.length_flatMap, hashLengths]
    obtain ⟨front, device⟩ := List.append_inj same (by simp [nameLength, listLength])
    obtain ⟨texts, time⟩ := List.append_inj front (by simp [nameLength, listLength])
    obtain ⟨name, hashes⟩ := List.append_inj texts nameLength
    unfold covered
    rw [strBytes_inj name, flatMap_strBytes_inj hashLengths hashes, u64Bytes_inj time,
      strBytes_inj device]
  · intro same
    unfold covered at same
    simp only [Prod.mk.injEq] at same
    obtain ⟨name, hashes, time, device⟩ := same
    unfold hashed
    rw [name, hashes, time, device]

theorem aligned_of_covered_eq {left right : FileEntry} (same : left.covered = right.covered) :
    Aligned left right := by
  unfold covered at same
  simp only [Prod.mk.injEq] at same
  obtain ⟨name, hashes, _, _⟩ := same
  unfold Aligned
  rw [name, hashes]
  exact ⟨rfl, rfl⟩

theorem verifyHash_iff (hemera : Hemera) (entry : FileEntry) :
    entry.verifyHash hemera = true ↔ entry.entryHash = hemera.toHex (hemera.hash entry.hashed) := by
  rw [verifyHash, beq_iff_eq]
  rfl

/-- Next to a verified entry, an entry carrying the same hash verifies exactly
when its buffer is the same. -/
theorem verifyHash_of_same_hash {hemera : Hemera} (hexInjective : Function.Injective hemera.toHex)
    {left right : FileEntry} (free : hemera.CollisionFree {left.hashed, right.hashed})
    (verified : left.verifyHash hemera = true) (same : left.entryHash = right.entryHash) :
    right.verifyHash hemera = true ↔ left.hashed = right.hashed := by
  rw [verifyHash_iff] at verified
  rw [verifyHash_iff, ← same, verified]
  exact ⟨fun hex => free.pair (hexInjective hex), fun bytes => by rw [bytes]⟩

theorem validate_error_of_unverified {hemera : Hemera} {entry : FileEntry}
    (unverified : entry.verifyHash hemera = false) (now : Nat) :
    ∃ error, entry.validate hemera now = .error error := by
  unfold validate
  by_cases unnamed : entry.name.isEmpty
  · exact ⟨_, if_pos unnamed⟩
  · by_cases bare : entry.shardHashes.isEmpty
    · exact ⟨.noShards, by rw [if_neg unnamed, if_pos bare]⟩
    · exact ⟨.hashMismatch, by rw [if_neg unnamed, if_neg bare, unverified]; rfl⟩

end FileEntry

namespace GSet

theorem validatedInsert_error {hemera : Hemera} {now : Nat} {registry : GSet} {entry : FileEntry}
    {error : ValidationError} (rejected : entry.validate hemera now = .error error) :
    registry.validatedInsert hemera now entry = .error error := by
  unfold validatedInsert
  rw [rejected]
  rfl

/-- One step of the loop in `validated_merge`. -/
def mergeStep (hemera : Hemera) (now : Nat) (state : GSet × Nat × Nat)
    (entry : FileEntry) : GSet × Nat × Nat :=
  match state.1.validatedInsert hemera now entry with
  | .ok registry => (registry, state.2.1 + 1, state.2.2)
  | .error _ => (state.1, state.2.1, state.2.2 + 1)

theorem validatedMerge_eq (hemera : Hemera) (now : Nat) (registry : GSet)
    (order : List FileEntry) :
    registry.validatedMerge hemera now order =
      order.foldl (mergeStep hemera now) (registry, 0, 0) := rfl

theorem mergeStep_ok {hemera : Hemera} {now : Nat} {registry next : GSet} {entry : FileEntry}
    (inserted : registry.validatedInsert hemera now entry = .ok next) (accepted rejected : Nat) :
    mergeStep hemera now (registry, accepted, rejected) entry = (next, accepted + 1, rejected) := by
  simp only [mergeStep, inserted]

theorem mergeStep_error {hemera : Hemera} {now : Nat} {registry : GSet} {entry : FileEntry}
    {error : ValidationError} (refused : registry.validatedInsert hemera now entry = .error error)
    (accepted rejected : Nat) :
    mergeStep hemera now (registry, accepted, rejected) entry =
      (registry, accepted, rejected + 1) := by
  simp only [mergeStep, refused]

/-- The counts of a walk are added to the counts at its start. -/
theorem foldl_mergeStep (hemera : Hemera) (now : Nat) (order : List FileEntry) (registry : GSet)
    (accepted rejected : Nat) :
    order.foldl (mergeStep hemera now) (registry, accepted, rejected) =
      ((registry.validatedMerge hemera now order).1,
        accepted + (registry.validatedMerge hemera now order).2.1,
        rejected + (registry.validatedMerge hemera now order).2.2) := by
  induction order generalizing registry accepted rejected with
  | nil => rfl
  | cons entry rest ih =>
      rw [validatedMerge_eq, List.foldl_cons, List.foldl_cons]
      cases outcome : registry.validatedInsert hemera now entry with
      | ok next =>
          rw [mergeStep_ok outcome, mergeStep_ok outcome, ih, ih _ (0 + 1)]
          simp only [Nat.zero_add, Nat.add_assoc]
      | error error =>
          rw [mergeStep_error outcome, mergeStep_error outcome, ih, ih _ 0]
          simp only [Nat.zero_add, Nat.add_assoc]

/-- An entry that fails validation only shows up in the count of rejections. -/
theorem validatedMerge_skips {hemera : Hemera} {now : Nat} {entry : FileEntry}
    {error : ValidationError} (invalid : entry.validate hemera now = .error error)
    (registry : GSet) (before after : List FileEntry) :
    registry.validatedMerge hemera now (before ++ entry :: after) =
      (fun result : GSet × Nat × Nat => (result.1, result.2.1, result.2.2 + 1))
        (registry.validatedMerge hemera now (before ++ after)) := by
  rw [validatedMerge_eq, validatedMerge_eq, List.foldl_append, List.foldl_append, List.foldl_cons]
  obtain ⟨current, accepted, rejected⟩ := before.foldl (mergeStep hemera now) (registry, 0, 0)
  rw [mergeStep_error (validatedInsert_error invalid), foldl_mergeStep, foldl_mergeStep,
    Nat.add_right_comm]

end GSet

namespace FileEntry

/-- Of two verified entries with one hash, the covered fields agree exactly when
the texts end at the same places.  A relay that keeps the hash and the ends of
the texts but alters a covered field is rejected, and the rest of the merge
goes on as if the entry were not there.  The other fields are free. -/
theorem entryHash_binds_covered (hemera : Hemera)
    (hexInjective : Function.Injective hemera.toHex) (original relayed : FileEntry)
    (free : hemera.CollisionFree {original.hashed, relayed.hashed})
    (verified : original.verifyHash hemera = true)
    (same : original.entryHash = relayed.entryHash) :
    (relayed.verifyHash hemera = true →
      (original.covered = relayed.covered ↔ Aligned original relayed)) ∧
    (Aligned original relayed → original.covered ≠ relayed.covered →
      ∀ (now : Nat) (registry : GSet),
        (∃ error, registry.validatedInsert hemera now relayed = .error error) ∧
        ∀ before after,
          let kept := registry.validatedMerge hemera now (before ++ after)
          registry.validatedMerge hemera now (before ++ relayed :: after) =
            (kept.1, kept.2.1, kept.2.2 + 1)) ∧
    (original.covered = relayed.covered → relayed.verifyHash hemera = true) := by
  have accepted := verifyHash_of_same_hash hexInjective free verified same
  refine ⟨fun relayedVerified => ⟨aligned_of_covered_eq, fun aligned => ?_⟩,
    fun aligned altered now registry => ?_, fun agree => ?_⟩
  · exact (hashed_inj aligned).mp (accepted.mp relayedVerified)
  · have unverified : relayed.verifyHash hemera = false := by
      rw [← Bool.not_eq_true]
      intro relayedVerified
      exact altered ((hashed_inj aligned).mp (accepted.mp relayedVerified))
    obtain ⟨error, invalid⟩ := validate_error_of_unverified unverified now
    exact ⟨⟨error, GSet.validatedInsert_error invalid⟩, GSet.validatedMerge_skips invalid registry⟩
  · exact accepted.mpr ((hashed_inj (aligned_of_covered_eq agree)).mpr agree)

def published (hemera : Hemera) (name : String) (shardHashes : List String) (timestamp : UInt64)
    (deviceId : String) : FileEntry where
  name
  originalLen := 3
  k := 1
  n := 2
  shardHashes
  timestamp
  entryHash := computeHash hemera name shardHashes timestamp deviceId
  deviceId
  dasRoot := "cc"
  shardCopies := 1
  deleted := false

/-- A relay renames a file of one letter and leaves everything else alone. -/
theorem entryHash_binds_covered_renamed :
    let original := published .truncating "a" ["bb"] 1 "c"
    let relayed := { original with name := "d" }
    Function.Injective Hemera.truncating.toHex ∧
      Hemera.truncating.CollisionFree {original.hashed, relayed.hashed} ∧
      original.verifyHash .truncating = true ∧ Aligned original relayed ∧
      original.covered ≠ relayed.covered ∧
      ∃ error, GSet.new.validatedInsert .truncating 0 relayed = .error error := by
  intro original relayed
  have free : Hemera.truncating.CollisionFree {original.hashed, relayed.hashed} := by
    have different : Hemera.truncating.hash original.hashed ≠
        Hemera.truncating.hash relayed.hashed := by decide +kernel
    intro left leftMember right rightMember digests
    rcases leftMember with rfl | rfl <;> rcases rightMember with rfl | rfl
    · rfl
    · exact absurd digests different
    · exact absurd digests.symm different
    · rfl
  have verified : original.verifyHash .truncating = true := by
    rw [verifyHash_iff]
    rfl
  have aligned : Aligned original relayed := by decide +kernel
  have altered : original.covered ≠ relayed.covered := by decide +kernel
  exact ⟨hexText_injective, free, verified, aligned, altered,
    ((entryHash_binds_covered .truncating hexText_injective original relayed free verified rfl).2.1
      aligned altered 0 .new).1⟩

/-- Setting the tombstone of a verified entry, or moving the end of its name,
gives another verified entry with the same hash. -/
theorem entryHash_leaves_fields_free :
    let original := published .truncating "ab" ["cd"] 1 "e"
    let deletion := { original with deleted := true }
    let shifted := published .truncating "abc" ["d"] 1 "e"
    Hemera.truncating.CollisionFree {original.hashed, deletion.hashed, shifted.hashed} ∧
      original.verifyHash .truncating = true ∧
      (deletion.verifyHash .truncating = true ∧ original.entryHash = deletion.entryHash ∧
        original.deleted ≠ deletion.deleted) ∧
      (shifted.verifyHash .truncating = true ∧ original.entryHash = shifted.entryHash ∧
        original.name ≠ shifted.name) := by
  intro original deletion shifted
  have verified : original.verifyHash .truncating = true := (verifyHash_iff _ _).mpr rfl
  have moved : original.hashed = shifted.hashed := by decide +kernel
  have shiftedHash : original.entryHash = shifted.entryHash :=
    congrArg (fun bytes => Hemera.truncating.toHex (Hemera.truncating.hash bytes)) moved
  have free : Hemera.truncating.CollisionFree {original.hashed, deletion.hashed, shifted.hashed} := by
    have single : ∀ bytes ∈ ({original.hashed, deletion.hashed, shifted.hashed} : Set (List UInt8)),
        bytes = original.hashed := by
      rintro bytes (rfl | rfl | rfl)
      · rfl
      · rfl
      · exact moved.symm
    intro left leftMember right rightMember _
    rw [single left leftMember, single right rightMember]
  exact ⟨free, verified, ⟨verified, rfl, by decide +kernel⟩, (verifyHash_iff _ _).mpr rfl,
    shiftedHash, by decide +kernel⟩

end FileEntry

end Foculus.Store

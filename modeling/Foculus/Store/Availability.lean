import Foculus.Store.Das
import Mathlib.Data.List.Dedup
import Mathlib.Data.List.ReduceOption

namespace Foculus.Store.Das

open Data Erasure

/-! # The verdict of a sampling round (`src/das.rs`)

The verdict counts the answers that verify; a request may be answered with any
sample, so an index may be counted more than once. -/

inductive Availability where
  | available
  | unavailable
deriving DecidableEq, Repr

section Verdict

variable (tree : HemeraTree) (commitment : DasCommitment)

def verifyAvailability (samples : List Sample) : Nat × Nat :=
  let passed := samples.foldl
    (fun passed sample => if verifySample tree sample commitment then passed + 1 else passed) 0
  (passed, samples.length)

/-- A withheld or unanswered request is `none`. -/
def passes : Option Sample → Bool
  | some sample => verifySample tree sample commitment
  | none => false

def decideAvailability (responses : List (Option Sample)) (minVerified : Nat) : Availability :=
  let passed := (responses.filter (passes tree commitment)).length
  if passed ≥ minVerified then .available else .unavailable

def verifiedSamples (responses : List (Option Sample)) : List Sample :=
  responses.reduceOption.filter (verifySample tree · commitment)

def verifiedIndices (responses : List (Option Sample)) : List Nat :=
  (verifiedSamples tree commitment responses).map Sample.shardIndex

/-- How many shards the verified samples are of. -/
def distinctVerified (responses : List (Option Sample)) : Nat :=
  (verifiedIndices tree commitment responses).dedup.length

end Verdict

section Sound

variable {tree : HemeraTree} {commitment : DasCommitment} {responses : List (Option Sample)}
  {minVerified : Nat}

theorem passed_eq (responses : List (Option Sample)) :
    (responses.filter (passes tree commitment)).length =
      (verifiedIndices tree commitment responses).length := by
  rw [verifiedIndices, List.length_map, verifiedSamples]
  induction responses with
  | nil => rfl
  | cons response rest ih =>
      cases response with
      | none => rw [List.reduceOption_cons_of_none, List.filter_cons_of_neg (by simp [passes]), ih]
      | some sample =>
          rw [List.reduceOption_cons_of_some, List.filter_cons, List.filter_cons]
          by_cases accepted : verifySample tree sample commitment = true
          · rw [if_pos accepted, if_pos (by exact accepted), List.length_cons, List.length_cons, ih]
          · rw [if_neg accepted, if_neg (by exact accepted), ih]

theorem decideAvailability_eq_available_iff :
    decideAvailability tree commitment responses minVerified = .available ↔
      minVerified ≤ (verifiedIndices tree commitment responses).length := by
  rw [decideAvailability, passed_eq]
  split_ifs with enough
  · exact ⟨fun _ => enough, fun _ => rfl⟩
  · exact ⟨fun verdict => (nomatch verdict), fun reached => absurd reached enough⟩

theorem verifiedSamples_answered (samples : List Sample) :
    verifiedSamples tree commitment (samples.map some) =
      samples.filter (verifySample tree · commitment) := by
  have answered : (samples.map some).reduceOption = samples := by
    rw [List.reduceOption, List.filterMap_map]
    exact List.filterMap_some
  rw [verifiedSamples, answered]

theorem verifyAvailability_of_answered (samples : List Sample) :
    verifyAvailability tree commitment samples =
      ((verifiedIndices tree commitment (samples.map some)).length, samples.length) := by
  have counted (passed : Nat) :
      samples.foldl (fun passed sample =>
        if verifySample tree sample commitment then passed + 1 else passed) passed =
        passed + (samples.filter (verifySample tree · commitment)).length := by
    induction samples generalizing passed with
    | nil => rfl
    | cons sample rest ih =>
        rw [List.foldl_cons, ih, List.filter_cons]
        split_ifs
        · rw [List.length_cons, Nat.add_assoc, Nat.add_comm 1]
        · rfl
  rw [verifyAvailability, counted, Nat.zero_add, verifiedIndices, List.length_map,
    verifiedSamples_answered]

/-- No index is counted twice exactly when the answers are of as many shards. -/
theorem length_le_dedup_iff {indices : List Nat} :
    indices.length ≤ indices.dedup.length ↔ indices.Nodup := by
  constructor
  · intro long
    have same := indices.dedup_sublist.eq_of_length_le long
    rw [← same]
    exact indices.nodup_dedup
  · intro distinct
    rw [distinct.dedup]

/-- The verdict is sound at every threshold exactly when no shard is verified
twice; then any `k` passed samples decode. -/
theorem available_distinct_iff (tree : HemeraTree) (commitment : DasCommitment)
    (responses : List (Option Sample)) :
    ((∀ minVerified, decideAvailability tree commitment responses minVerified = .available →
        minVerified ≤ distinctVerified tree commitment responses) ↔
      (verifiedIndices tree commitment responses).Nodup) ∧
    ((verifiedIndices tree commitment responses).Nodup →
      ∀ (nebu : Nebu) (data : List UInt8) (k n minVerified : Nat) (shards : List Shard),
        nebu.Lawful → n ≤ 2 ^ 32 → k ≤ minVerified →
        encode nebu data k n = some shards →
        commitment.root = (commit tree shards k data.length).root →
        tree.CollisionFree (hashed tree shards commitment
          (verifiedSamples tree commitment responses)) →
        decideAvailability tree commitment responses minVerified = .available →
        decode nebu ((verifiedSamples tree commitment responses).map fun sample =>
          bytesToShard sample.shardIndex sample.shardData) k n data.length = .ok data) := by
  simp only [decideAvailability_eq_available_iff]
  refine ⟨?_, ?_⟩
  · rw [← length_le_dedup_iff]
    constructor
    · intro sound
      exact sound _ (Nat.le_refl _)
    · intro distinct minVerified reached
      exact Nat.le_trans reached distinct
  · intro distinct nebu data k n minVerified shards lawful bound enough encoded root free reached
    obtain ⟨power, positive, threshold⟩ := encode_params encoded
    obtain ⟨produced, coded, decodes⟩ :=
      accepted_samples_decode nebu lawful tree data k n power bound positive threshold
    cases Option.some.inj (encoded.symm.trans coded)
    refine decodes commitment _ free root ?_ distinct ?_
    · intro sample member
      exact (List.mem_filter.mp member).2
    · rw [verifiedIndices, List.length_map] at reached
      exact Nat.le_trans enough reached

end Sound

theorem available_distinct_one_byte :
    let commitment := commit .truncating oneByteShards 1 1
    let responses := (oneByteShards.map (sample .truncating)).map some
    (decideAvailability .truncating commitment responses 2 = .available →
      2 ≤ distinctVerified .truncating commitment responses) ∧
    decode naiveNebu ((verifiedSamples .truncating commitment responses).map fun sample =>
      bytesToShard sample.shardIndex sample.shardData) 1 2 1 = .ok [7] := by
  intro commitment responses
  obtain ⟨sound, decodes⟩ := available_distinct_iff .truncating commitment responses
  have distinct : (verifiedIndices .truncating commitment responses).Nodup := by decide +kernel
  have samples : verifiedSamples .truncating commitment responses =
      oneByteShards.map (sample .truncating) :=
    (verifiedSamples_answered _).trans (List.filter_eq_self.mpr (by decide +kernel))
  refine ⟨sound.mpr distinct 2, decodes distinct naiveNebu [7] 1 2 2 oneByteShards
    naiveNebu_lawful (by decide) (by decide) encode_single_byte rfl ?_ ?_⟩
  · rw [samples]
    exact oneByte_collisionFree
  · decide +kernel

/-- One valid sample, sent twice. -/
def repeatedSample : List (Option Sample) :=
  [some (sample .truncating ⟨0, [7]⟩), some (sample .truncating ⟨0, [7]⟩)]

/-- Two answers with the same shard are enough for a threshold of two, and do
not decode. -/
theorem repeated_sample_available :
    let commitment := commit .truncating [⟨0, [7]⟩, ⟨1, [7]⟩] 2 1
    decideAvailability .truncating commitment repeatedSample 2 = .available ∧
      distinctVerified .truncating commitment repeatedSample = 1 ∧
      decode naiveNebu ((verifiedSamples .truncating commitment repeatedSample).map fun sample =>
        bytesToShard sample.shardIndex sample.shardData) 2 2 1 =
        .err "duplicate shard index 0" := by
  decide +kernel

end Foculus.Store.Das

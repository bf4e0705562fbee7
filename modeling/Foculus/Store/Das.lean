import Foculus.Store.Chunk

namespace Foculus.Store

open Data Erasure

/-! # Data availability sampling (`src/das.rs`) -/

structure DasCommitment where
  shardRoots : List Particle
  root : Particle
  k : Nat
  n : Nat
  originalLen : Nat

structure Sample where
  shardIndex : Nat
  shardData : List UInt8
  shardRoot : Particle

namespace Das

def rootsBytes (shardRoots : List Particle) : List UInt8 := shardRoots.flatMap Vector.toList

def globalRoot (tree : HemeraTree) (shardRoots : List Particle) : Particle :=
  tree.rootHash (rootsBytes shardRoots)

def commit (tree : HemeraTree) (shards : List Shard) (k originalLen : Nat) : DasCommitment :=
  let shardRoots := shards.map fun shard => tree.rootHash (shardToBytes shard)
  { shardRoots, root := globalRoot tree shardRoots, k, n := shards.length, originalLen }

def sample (tree : HemeraTree) (shard : Shard) : Sample where
  shardIndex := shard.index
  shardData := shardToBytes shard
  shardRoot := tree.rootHash (shardToBytes shard)

def verifySample (tree : HemeraTree) (sample : Sample) (commitment : DasCommitment) : Bool :=
  if sample.shardIndex ≥ commitment.n ∨ sample.shardIndex ≥ commitment.shardRoots.length then false
  else if globalRoot tree commitment.shardRoots ≠ commitment.root then false
  else commitment.shardRoots[sample.shardIndex]? == some (tree.rootHash sample.shardData)

/-- What is hashed when samples are checked against a commitment to other shards. -/
def hashed (tree : HemeraTree) (shards : List Shard) (commitment : DasCommitment)
    (samples : List Sample) : Set (List UInt8) :=
  {rootsBytes (shards.map fun shard => tree.rootHash (shardToBytes shard)),
    rootsBytes commitment.shardRoots} ∪
  {bytes | ∃ shard ∈ shards, bytes = shardToBytes shard} ∪
  {bytes | ∃ sample ∈ samples, bytes = sample.shardData}

section Binding

variable {tree : HemeraTree} {shards : List Shard} {k originalLen : Nat}
  {commitment : DasCommitment} {samples : List Sample}

/-- The root binds the roots of the shards. -/
theorem shardRoots_eq (free : tree.CollisionFree (hashed tree shards commitment samples))
    (root : commitment.root = (commit tree shards k originalLen).root)
    (bound : globalRoot tree commitment.shardRoots = commitment.root) :
    commitment.shardRoots = shards.map fun shard => tree.rootHash (shardToBytes shard) := by
  have same : rootsBytes commitment.shardRoots =
      rootsBytes (shards.map fun shard => tree.rootHash (shardToBytes shard)) := by
    apply free
    · exact .inl (.inl (by simp))
    · exact .inl (.inl (by simp))
    · exact bound.trans root
  have lengths := congrArg List.length same
  rw [rootsBytes, rootsBytes, Particle.toList_fixedWidth.flatMap_length,
    Particle.toList_fixedWidth.flatMap_length] at lengths
  exact Particle.toList_fixedWidth.flatMap_inj (by omega) same

theorem verifySample_eq_true {sample : Sample}
    (accepted : verifySample tree sample commitment = true) :
    globalRoot tree commitment.shardRoots = commitment.root ∧
      commitment.shardRoots[sample.shardIndex]? = some (tree.rootHash sample.shardData) := by
  rw [verifySample] at accepted
  split_ifs at accepted with outside unbound
  exact ⟨not_not.mp unbound, beq_iff_eq.mp accepted⟩

/-- An accepted sample is the shard of its index. -/
theorem toShard_of_accepted (free : tree.CollisionFree (hashed tree shards commitment samples))
    (root : commitment.root = (commit tree shards k originalLen).root) {sample : Sample}
    (member : sample ∈ samples) (accepted : verifySample tree sample commitment = true) :
    ∃ shard, shards[sample.shardIndex]? = some shard ∧ shardToBytes shard = sample.shardData := by
  obtain ⟨bound, committed⟩ := verifySample_eq_true accepted
  rw [shardRoots_eq free root bound, List.getElem?_map] at committed
  cases found : shards[sample.shardIndex]? with
  | none => simp [found] at committed
  | some shard =>
      simp only [found, Option.map_some, Option.some.injEq] at committed
      refine ⟨shard, rfl, free ?_ ?_ committed⟩
      · exact .inl (.inr ⟨shard, List.mem_of_getElem? found, rfl⟩)
      · exact .inr ⟨sample, member, rfl⟩

end Binding

/-- Against a commitment with the root of the encoded shards, whatever else it
states, any `k` accepted samples of distinct indices decode to the data. -/
theorem accepted_samples_decode (nebu : Nebu) (lawful : nebu.Lawful) (tree : HemeraTree)
    (data : List UInt8) (k n : Nat) (power : isPowerOfTwo n = true) (bound : n ≤ 2 ^ 32)
    (positive : 1 ≤ k) (threshold : k ≤ n) :
    ∃ shards, encode nebu data k n = some shards ∧
      ∀ (commitment : DasCommitment) (samples : List Sample),
        tree.CollisionFree (hashed tree shards commitment samples) →
        commitment.root = (commit tree shards k data.length).root →
        (∀ sample ∈ samples, verifySample tree sample commitment = true) →
        (samples.map Sample.shardIndex).Nodup → k ≤ samples.length →
        decode nebu (samples.map fun sample => bytesToShard sample.shardIndex sample.shardData)
          k n data.length = .ok data := by
  obtain ⟨_, _, _, encoded⟩ := encode_eq lawful data power bound positive threshold
  have codeword := encode_codeword lawful bound encoded
  refine ⟨_, encoded, ?_⟩
  intro commitment samples free root accepted distinct enough
  apply codeword.decodes
  · intro shard member
    obtain ⟨sample, sampleMember, rfl⟩ := List.mem_map.mp member
    obtain ⟨shard, found, bytes⟩ :=
      toShard_of_accepted free root sampleMember (accepted sample sampleMember)
    rw [← bytes, ← codeword.index_eq found, bytesToShard_shardToBytes]
    exact List.mem_of_getElem? found
  · rw [List.map_map]
    exact distinct
  · rw [List.length_map]
    exact enough

/-- Both shards of one byte in one piece. -/
def oneByteShards : List Shard := [⟨0, [7]⟩, ⟨1, [7]⟩]

theorem oneByte_collisionFree : HemeraTree.truncating.CollisionFree
    (hashed .truncating oneByteShards (commit .truncating oneByteShards 1 1)
      (oneByteShards.map (sample .truncating))) := by
  have two : hashed .truncating oneByteShards (commit .truncating oneByteShards 1 1)
      (oneByteShards.map (sample .truncating)) ⊆
      {rootsBytes (commit .truncating oneByteShards 1 1).shardRoots, shardToBytes ⟨0, [7]⟩} := by
    rintro bytes (((rfl | rfl) | ⟨shard, member, rfl⟩) | ⟨sample, member, rfl⟩)
    · exact .inl rfl
    · exact .inl rfl
    · right
      simp only [oneByteShards, List.mem_cons, List.not_mem_nil, or_false] at member
      rcases member with rfl | rfl <;> rfl
    · right
      simp only [oneByteShards, List.map_cons, List.map_nil, List.mem_cons, List.not_mem_nil,
        or_false] at member
      rcases member with rfl | rfl <;> rfl
  exact Set.InjOn.mono two (Hemera.collisionFree_of_apart (by decide +kernel))

theorem accepted_samples_decode_one_byte :
    let shards : List Shard := [⟨0, [7]⟩, ⟨1, [7]⟩]
    let samples := shards.map (sample .truncating)
    naiveNebu.Lawful ∧ encode naiveNebu [7] 1 2 = some shards ∧
      HemeraTree.truncating.CollisionFree
        (hashed .truncating shards (commit .truncating shards 1 1) samples) ∧
      decode naiveNebu (samples.map fun sample =>
        bytesToShard sample.shardIndex sample.shardData) 1 2 1 = .ok [7] := by
  intro shards samples
  obtain ⟨encoded, coded, decodes⟩ := accepted_samples_decode naiveNebu naiveNebu_lawful
    .truncating [7] 1 2 (by decide) (by decide) (by decide) (by decide)
  cases Option.some.inj (encode_single_byte.symm.trans coded)
  refine ⟨naiveNebu_lawful, encode_single_byte, oneByte_collisionFree, ?_⟩
  exact decodes (commit .truncating shards 1 1) samples oneByte_collisionFree rfl (by decide +kernel)
    (by decide +kernel) (by decide +kernel)

end Das

end Foculus.Store

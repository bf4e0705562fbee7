import Foculus.Store.ChunkStore

namespace Foculus.Store.ChunkStore

open Data Erasure

/-! # Putting a chunk again (`put` of `ChunkStore` in `src/store.rs`)

A chunk that is stored meets three checks on three views of the store: its size is
added to the counter, its file is looked for on disk, and only then does it reach the
index.  The first of them is made before it is known that nothing will be written.
-/

variable {hemera : Hemera} {store : ChunkStore hemera} {tree : FileTree} {shard : Shard}

/-- The store returns the chunk of the shard. -/
def Holds (store : ChunkStore hemera) (tree : FileTree) (shard : Shard) : Prop :=
  store.get tree (digest hemera shard) = .ok (shardToBytes shard)

/-- On the same files the two stores count and answer the same. -/
structure Same (tree : FileTree) (store after : ChunkStore hemera) : Prop where
  root : after.root = store.root
  capacity : after.capacity = store.capacity
  used : after.used = store.used
  get : ∀ hash, after.get tree hash = store.get tree hash
  has : ∀ hash, after.has tree hash = store.has tree hash

/-- The chunk would fit in once more, and there is a file under its name. -/
def Fits (store : ChunkStore hemera) (tree : FileTree) (shard : Shard) : Prop :=
  ¬ store.Over shard ∧ tree.has (store.place shard) = true

/-- `put` succeeds with the hash of the chunk, and what is stored stays as it is. -/
def Repeats (store : ChunkStore hemera) (tree : FileTree) (shard : Shard) : Prop :=
  ∃ after, put shard (store, tree) = (.ok (digest hemera shard), after, tree) ∧ Same tree store after

/-- A chunk that the store holds is what it answers from the index too. -/
theorem indexed_same (held : store.Holds tree shard)
    (present : tree.has (store.place shard) = true) :
    Same tree store (store.indexed (shardToBytes shard)) where
  root := rfl
  capacity := rfl
  used := rfl
  get hash := by
    simp only [get, indexed, Std.ExtTreeMap.getElem?_insert]
    split_ifs with same
    · have named : chunkName hemera shard = hemera.toHex hash := Std.LawfulEqCmp.eq_of_compare same
      have before : store.get tree (digest hemera shard) = .ok (shardToBytes shard) := held
      simp only [get] at before
      rw [show hemera.toHex (digest hemera shard) = hemera.toHex hash from named] at before
      exact before.symm
    · rfl
  has := indexed_has present

/-- A `put` that finds its file in place and room for another puts the chunk into the index. -/
theorem put_of_fits (fits : store.Fits tree shard) :
    put shard (store, tree) =
      (.ok (digest hemera shard), store.indexed (shardToBytes shard), tree) := by
  obtain ⟨room, present⟩ := fits
  rcases put_cases shard store tree with ⟨exceeds, -⟩ | ⟨-, -, called⟩ | ⟨-, absent, -⟩
  · exact absurd exceeds room
  · exact called
  · rw [present] at absent
    cases absent

/-- A `put` that succeeds without writing found its file in place. -/
theorem fits_of_put {hash : Particle} {after : ChunkStore hemera}
    (stored : put shard (store, tree) = (.ok hash, after, tree)) : store.Fits tree shard := by
  refine ⟨fun exceeds => ?_, has_place_of_put stored⟩
  rcases put_cases shard store tree with ⟨-, reason, called⟩ | ⟨room, -⟩ | ⟨room, -⟩
  · cases called.symm.trans stored
  · exact room exceeds
  · exact room exceeds

/-- Putting a stored chunk again changes nothing exactly if the counter leaves room for
it once more and its file is on disk. -/
theorem repeats_iff (held : store.Holds tree shard) :
    store.Repeats tree shard ↔ store.Fits tree shard := by
  constructor
  · rintro ⟨after, stored, -⟩
    exact fits_of_put stored
  · intro fits
    exact ⟨_, put_of_fits fits, indexed_same held fits.2⟩

end Foculus.Store.ChunkStore

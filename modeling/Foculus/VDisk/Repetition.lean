import Foculus.VDisk.Rollback

namespace Foculus.VDisk.World

open Data Erasure Store

/-! # Putting a file again

`put_file` and `rechunk` deal the shards out in the same loop, and the first `put` that
fails ends it.  For a file whose chunks are in place already the loop writes nothing, and
what it comes to is decided by what each store makes of a chunk that it has. -/

variable {hemera : Hemera} {world between after : World hemera} {deviceNames : List String}

/-- Every shard is one that the store of its device holds. -/
def Present (world : World hemera) (deviceNames : List String) (shards : List Shard) : Prop :=
  ∀ shard ∈ shards, ∃ store : ChunkStore hemera,
    world.manager.stores[deviceOf deviceNames shard]? = some store ∧ store.Holds world.tree shard

/-- The worlds are alike, and what the stores return is the same. -/
structure Same (world after : World hemera) : Prop where
  alike : world.Alike after
  get : ∀ (name : String) (hash : Particle),
    after.manager.stores[name]?.map (fun store => store.get after.tree hash) =
      world.manager.stores[name]?.map fun store => store.get world.tree hash

/-- The loop succeeds with the names of all chunks, and what is stored stays as it is. -/
def Repeats (world : World hemera) (deviceNames : List String) (shards : List Shard) : Prop :=
  ∃ after, distribute deviceNames shards world = (.ok (shards.map (chunkName hemera)), after) ∧
    Same world after

theorem Same.refl (world : World hemera) : Same world world := ⟨.refl world, fun _ _ => rfl⟩

theorem Same.trans (first : Same world between) (second : Same between after) : Same world after :=
  ⟨first.alike.trans second.alike, fun name hash => (second.get name hash).trans (first.get name hash)⟩

theorem Same.present (same : Same world after) {shards : List Shard}
    (present : world.Present deviceNames shards) : after.Present deviceNames shards := by
  intro shard member
  obtain ⟨store, opened, held⟩ := present shard member
  have answers := same.get (deviceOf deviceNames shard) (digest hemera shard)
  rw [opened, Option.map_some, Option.map_eq_some_iff] at answers
  obtain ⟨kept, found, answer⟩ := answers
  exact ⟨kept, found, answer.trans held⟩

section Step

variable {deviceName : String} {store : ChunkStore hemera} {shard : Shard}

/-- A chunk that its store holds is put, and the world stays as it is. -/
theorem Kept.put_held (kept : world.Kept deviceName shard)
    (opened : world.manager.stores[deviceName]? = some store) (held : store.Holds world.tree shard) :
    ∃ after, putShard deviceName shard world = (.ok (some (digest hemera shard)), after) ∧
      Same world after := by
  have fits : store.Fits world.tree shard := kept store opened
  refine ⟨world.stored deviceName (store.indexed (shardToBytes shard)) world.tree, ?_,
    .of_indexed opened fits.2, ?_⟩
  · rw [putShard_opened opened, ChunkStore.put_of_fits fits]
    rfl
  · intro name hash
    rw [stored_getElem?]
    split_ifs with here
    · rw [← here, opened, Option.map_some, Option.map_some]
      exact congrArg some ((ChunkStore.indexed_same held fits.2).get hash)
    · rfl

/-- A shard that is put without a new file in the end was one that changes nothing. -/
theorem kept_of_putShard {hash : Option Particle}
    (put : putShard deviceName shard world = (.ok hash, between)) (grows : between.Grows after)
    (same : after.tree = world.tree) : world.Kept deviceName shard := by
  by_contra lost
  by_cases writes : world.Writes deviceName shard
  · obtain ⟨store, -, absent, created, -⟩ := writes.put
    rw [put] at created
    rw [← same, grows.has created] at absent
    cases absent
  · obtain ⟨reason, failed⟩ := putShard_refused lost writes
    cases put.symm.trans failed

end Step

/-- The loop over a file that is there leaves everything as it is if each shard does. -/
theorem repeats_of_kept {shards : List Shard} (present : world.Present deviceNames shards)
    (kept : ∀ shard ∈ shards, world.Kept (deviceOf deviceNames shard) shard) :
    world.Repeats deviceNames shards := by
  induction shards generalizing world with
  | nil => exact ⟨world, rfl, .refl world⟩
  | cons shard rest ih =>
      obtain ⟨store, opened, held⟩ := present shard List.mem_cons_self
      obtain ⟨between, put, same⟩ := (kept shard List.mem_cons_self).put_held opened held
      obtain ⟨after, dealt, sameRest⟩ := ih
        (same.present fun other member => present other (List.mem_cons_of_mem _ member))
        (fun other member => same.alike.kept_iff.mpr (kept other (List.mem_cons_of_mem _ member)))
      refine ⟨after, ?_, same.trans sameRest⟩
      rw [distribute]
      refine Action.bind_eq_ok_iff.mpr ⟨_, between, put, ?_⟩
      exact Action.bind_eq_ok_iff.mpr ⟨_, after, dealt, rfl⟩

/-- A loop that succeeds and leaves the files as they are has met no shard that changes
anything. -/
theorem kept_of_distribute {shards : List Shard} {names : List String}
    (dealt : distribute deviceNames shards world = (.ok names, after))
    (same : after.tree = world.tree) :
    ∀ shard ∈ shards, world.Kept (deviceOf deviceNames shard) shard := by
  induction shards generalizing world names with
  | nil => exact fun _ member => nomatch member
  | cons shard rest ih =>
      rw [distribute] at dealt
      obtain ⟨hash, between, put, next⟩ := Action.bind_eq_ok_iff.mp dealt
      obtain ⟨hashes, last, run, returned⟩ := Action.bind_eq_ok_iff.mp next
      cases returned
      -- What the first shard leaves on disk is still there in the end, and so was there before.
      have grows : between.Grows after := (distribute_returned run).grows
      have kept : world.Kept (deviceOf deviceNames shard) shard := kept_of_putShard put grows same
      obtain ⟨_, _, again, alike⟩ := kept.put
      cases put.symm.trans again
      intro other member
      rcases List.mem_cons.mp member with rfl | later
      · exact kept
      · exact alike.kept_iff.mp (ih run (same.trans alike.tree.symm) other later)

/-- Putting a chunk that is stored, or dealing out a file whose chunks are, succeeds with
the same names and changes nothing stored exactly if there is room for each chunk once
more and its file is on disk. -/
theorem put_again_iff {store : ChunkStore hemera} {tree : FileTree} {shard : Shard}
    (held : store.Holds tree shard) {shards : List Shard}
    (present : world.Present deviceNames shards) :
    (store.Repeats tree shard ↔ store.Fits tree shard) ∧
      (world.Repeats deviceNames shards ↔
        ∀ shard ∈ shards, world.Kept (deviceOf deviceNames shard) shard) := by
  refine ⟨ChunkStore.repeats_iff held, ?_, repeats_of_kept present⟩
  rintro ⟨after, dealt, same⟩
  exact kept_of_distribute dealt same.alike.tree

section Example

/-- The file's one chunk is put on a card of this capacity. -/
def cardWith (capacity : UInt64) : World Hemera.truncating :=
  ((do
    createDisk { name := "work", redundancy := .tolerate 0, shardCopies := 1 }
    attach "card" "work" capacity
    discard (putFile naiveNebu .truncating 5 "work" "notes" [7]) : Action _ String Unit) bareWorld).2

def cardShard : Shard := ⟨0, [7]⟩

theorem put_again_iff_roomy_card :
    let world := cardWith 16
    ∃ store : ChunkStore .truncating, world.manager.stores["card"]? = some store ∧
      store.Holds world.tree cardShard ∧ world.Present ["card"] [cardShard] ∧
      store.Repeats world.tree cardShard ∧ world.Repeats ["card"] [cardShard] := by
  intro world
  have evaluated : world.manager.stores["card"]?.any (fun store =>
      store.get world.tree (digest .truncating cardShard) = .ok (shardToBytes cardShard) ∧
        (store.capacity, store.used) = (16, 8) ∧
        world.tree.has (store.place cardShard) = true) = true := by
    unfold world cardWith
    rw [naiveNebu_eq]
    decide +kernel
  obtain ⟨store, opened, checked⟩ := (Option.any_eq_true _ _).mp evaluated
  obtain ⟨held, counted, onDisk⟩ := of_decide_eq_true checked
  have held : store.Holds world.tree cardShard := held
  have present : world.Present ["card"] [cardShard] := by
    intro shard member
    cases List.mem_singleton.mp member
    exact ⟨store, opened, held⟩
  have room : ¬ store.Over cardShard := by
    obtain ⟨capacity, used⟩ := Prod.mk.inj counted
    rw [ChunkStore.Over, capacity, used]
    decide
  have kept : ∀ shard ∈ [cardShard], world.Kept (deviceOf ["card"] shard) shard := by
    intro shard member other found
    cases List.mem_singleton.mp member
    cases opened.symm.trans found
    exact ⟨room, onDisk⟩
  obtain ⟨one, all⟩ := put_again_iff held present
  exact ⟨store, opened, held, present, one.mpr ⟨room, onDisk⟩, all.mpr kept⟩

/-- A card that is full with the one chunk of a file: the chunk is there, and putting it
again, or the whole file, fails for lack of capacity. -/
theorem full_card_refuses_its_chunk :
    let world := cardWith 8
    ∃ store : ChunkStore .truncating, world.manager.stores["card"]? = some store ∧
      store.Holds world.tree cardShard ∧
      (ChunkStore.put cardShard (store, world.tree)).1 = .err "chunk store capacity exceeded" ∧
      ¬ store.Repeats world.tree cardShard ∧
      (putFile naiveNebu .truncating 6 "work" "notes" [7] world).1.void =
        .err "chunk store capacity exceeded" := by
  intro world
  have evaluated : world.manager.stores["card"]?.any (fun store =>
      store.get world.tree (digest .truncating cardShard) = .ok (shardToBytes cardShard) ∧
        (ChunkStore.put cardShard (store, world.tree)).1 =
          .err "chunk store capacity exceeded") = true := by
    unfold world cardWith
    rw [naiveNebu_eq]
    decide +kernel
  obtain ⟨store, opened, checked⟩ := (Option.any_eq_true _ _).mp evaluated
  obtain ⟨held, refused⟩ := of_decide_eq_true checked
  refine ⟨store, opened, held, refused, ?_, ?_⟩
  · rintro ⟨after, stored, -⟩
    rw [stored] at refused
    cases refused
  · unfold world cardWith
    rw [naiveNebu_eq]
    decide +kernel

end Example

end Foculus.VDisk.World

import Foculus.Store.Idempotence
import Foculus.VDisk.Calls
import Foculus.VDisk.Growth

namespace Foculus.VDisk.World

open Data Erasure Store

/-! # What a failed `put_file` leaves behind

The shards are put one after the other before the file is registered, and
nothing takes a shard back when a later one finds no room. -/

variable {hemera : Hemera}

/-- The registry, the files, the chunks that each store has and the bytes it
counts as used are as before. -/
structure Untouched (world after : World hemera) : Prop where
  registry : after.manager.registry = world.manager.registry
  files : after.tree.node = world.tree.node
  stores : ∀ (name : String) (hash : Particle),
    after.manager.stores[name]?.map (fun store => (store.used, store.has after.tree hash)) =
      world.manager.stores[name]?.map fun store => (store.used, store.has world.tree hash)

/-- Putting the shard changes nothing: the device has no store, or the store has
room for the chunk and the directory has it already. -/
def Kept (world : World hemera) (deviceName : String) (shard : Shard) : Prop :=
  ∀ store : ChunkStore hemera, world.manager.stores[deviceName]? = some store →
    ¬ store.Over shard ∧ world.tree.has (store.place shard) = true

/-- Putting the shard leaves a new file. -/
def Writes (world : World hemera) (deviceName : String) (shard : Shard) : Prop :=
  ∃ store : ChunkStore hemera, world.manager.stores[deviceName]? = some store ∧
    ¬ store.Over shard ∧ world.tree.has (store.place shard) = false ∧
    world.tree.node store.root = some .dir ∧
    world.tree.obstacle (store.place shard) ≠ some .denied

/-- Putting the shard leaves the start of its chunk: the device is full before all of
it is written. -/
def Tears (world : World hemera) (deviceName : String) (shard : Shard) : Prop :=
  ∃ store : ChunkStore hemera, world.manager.stores[deviceName]? = some store ∧
    ¬ store.Over shard ∧ world.tree.has (store.place shard) = false ∧
    world.tree.node store.root = some .dir ∧
    world.tree.Short (store.place shard) (shardToBytes shard)

/-- Putting the shard succeeds. -/
def Accepts (world : World hemera) (deviceName : String) (shard : Shard) : Prop :=
  world.Kept deviceName shard ∨
    world.Writes deviceName shard ∧ ¬ world.Tears deviceName shard

section Alike

/-- The worlds differ at most in which of the chunks in its directory a store has
in its index. -/
structure Alike (world after : World hemera) : Prop where
  registry : after.manager.registry = world.manager.registry
  tree : after.tree = world.tree
  opened : ∀ {name : String} {store : ChunkStore hemera}, world.manager.stores[name]? = some store →
    ∃ kept : ChunkStore hemera, after.manager.stores[name]? = some kept ∧ kept.root = store.root ∧
      kept.capacity = store.capacity ∧ kept.used = store.used ∧
      ∀ hash, kept.has world.tree hash = store.has world.tree hash
  closed : ∀ {name : String}, world.manager.stores[name]? = none →
    after.manager.stores[name]? = none

variable {world between after : World hemera} {deviceName : String} {shard : Shard}

theorem Alike.refl (world : World hemera) : world.Alike world where
  registry := rfl
  tree := rfl
  opened opened := ⟨_, opened, rfl, rfl, rfl, fun _ => rfl⟩
  closed := id

theorem Alike.trans (first : world.Alike between) (second : between.Alike after) :
    world.Alike after where
  registry := second.registry.trans first.registry
  tree := second.tree.trans first.tree
  opened opened := by
    obtain ⟨middle, found, root, capacity, used, has⟩ := first.opened opened
    obtain ⟨last, foundLast, rootLast, capacityLast, usedLast, hasLast⟩ := second.opened found
    rw [first.tree] at hasLast
    exact ⟨last, foundLast, rootLast.trans root, capacityLast.trans capacity, usedLast.trans used,
      fun hash => (hasLast hash).trans (has hash)⟩
  closed missing := second.closed (first.closed missing)

theorem Alike.untouched (alike : world.Alike after) : world.Untouched after where
  registry := alike.registry
  files := congrArg FileTree.node alike.tree
  stores name hash := by
    rw [alike.tree]
    cases opened : world.manager.stores[name]? with
    | none => rw [alike.closed opened]
    | some store =>
        obtain ⟨kept, found, -, -, used, has⟩ := alike.opened opened
        rw [found, Option.map_some, Option.map_some, used, has]

theorem Alike.kept_iff (alike : world.Alike after) :
    after.Kept deviceName shard ↔ world.Kept deviceName shard := by
  cases opened : world.manager.stores[deviceName]? with
  | none => simp [Kept, opened, alike.closed opened]
  | some store =>
      obtain ⟨kept, found, root, capacity, used, -⟩ := alike.opened opened
      simp [Kept, opened, found, alike.tree, ChunkStore.Over, ChunkStore.place, root, capacity, used]

theorem Alike.writes_iff (alike : world.Alike after) :
    after.Writes deviceName shard ↔ world.Writes deviceName shard := by
  cases opened : world.manager.stores[deviceName]? with
  | none => simp [Writes, opened, alike.closed opened]
  | some store =>
      obtain ⟨kept, found, root, capacity, used, -⟩ := alike.opened opened
      simp [Writes, opened, found, alike.tree, ChunkStore.Over, ChunkStore.place, root, capacity,
        used]

end Alike

section PutShard

variable {world after : World hemera} {deviceName : String} {shard : Shard}

theorem Alike.of_indexed {store : ChunkStore hemera}
    (opened : world.manager.stores[deviceName]? = some store)
    (present : world.tree.has (store.place shard) = true) :
    world.Alike (world.stored deviceName (store.indexed (shardToBytes shard)) world.tree) where
  registry := rfl
  tree := rfl
  opened found := stored_opened opened (store.indexed (shardToBytes shard)) world.tree
    (fun old kept => kept.root = old.root ∧ kept.capacity = old.capacity ∧ kept.used = old.used ∧
      ∀ hash, kept.has world.tree hash = old.has world.tree hash)
    (fun _ => ⟨rfl, rfl, rfl, fun _ => rfl⟩)
    ⟨rfl, rfl, rfl, ChunkStore.indexed_has present⟩ found
  closed := stored_closed opened _ world.tree

/-- A shard that changes nothing is put. -/
theorem Kept.put (kept : world.Kept deviceName shard) :
    ∃ hash after, putShard deviceName shard world = (.ok hash, after) ∧ world.Alike after := by
  cases opened : world.manager.stores[deviceName]? with
  | none => exact ⟨none, world, putShard_missing opened shard, .refl world⟩
  | some store =>
      have fits : store.Fits world.tree shard := kept store opened
      rw [putShard_opened opened, ChunkStore.put_of_fits fits]
      exact ⟨_, _, rfl, .of_indexed opened fits.2⟩

theorem Kept.not_writes (kept : world.Kept deviceName shard) :
    ¬ world.Writes deviceName shard := by
  rintro ⟨store, opened, -, absent, -⟩
  rw [(kept store opened).2] at absent
  cases absent

theorem Tears.writes (tears : world.Tears deviceName shard) : world.Writes deviceName shard := by
  obtain ⟨store, opened, room, absent, inside, written, full, -⟩ := tears
  exact ⟨store, opened, room, absent, inside, by simp [full]⟩

/-- A shard that leaves a new file is put, or leaves the start of its chunk. -/
theorem Writes.put (writes : world.Writes deviceName shard) :
    ∃ store : ChunkStore hemera, world.manager.stores[deviceName]? = some store ∧
      world.tree.has (store.place shard) = false ∧
      (putShard deviceName shard world).2.tree.has (store.place shard) = true ∧
      (¬ world.Tears deviceName shard ∧
          (∃ hash after, putShard deviceName shard world = (.ok hash, after)) ∨
        world.Tears deviceName shard ∧ ∃ written reason tree,
          written < (shardToBytes shard).length ∧
          putShard deviceName shard world = (.err reason, world.stored deviceName store tree) ∧
          tree.node = Function.update world.tree.node (store.place shard)
            (some (.file ((shardToBytes shard).take written)))) := by
  obtain ⟨store, opened, room, absent, inside, permitted⟩ := writes
  have created := FileTree.write_creates inside absent permitted (shardToBytes shard)
  refine ⟨store, opened, absent, ?_⟩
  rw [putShard_opened opened]
  rcases ChunkStore.put_cases shard store world.tree with
    ⟨full, -⟩ | ⟨-, present, -⟩ | ⟨-, -, written⟩
  · exact absurd full room
  · rw [present] at absent
    cases absent
  · rcases FileTree.write_new inside absent permitted (shardToBytes shard) with
      ⟨whole, after, wrote, -, -⟩ | ⟨count, after, full, short, wrote, -, node⟩
    · have untorn : ¬ world.Tears deviceName shard := by
        rintro ⟨other, found, -, -, -, torn⟩
        cases opened.symm.trans found
        exact whole torn
      rcases written with ⟨tree, here, put⟩ | ⟨fault, tree, here, -⟩
      · rw [put]
        exact ⟨(congrArg (fun result => result.2.has (store.place shard)) here).symm.trans created,
          .inl ⟨untorn, _, _, rfl⟩⟩
      · cases wrote.symm.trans here
    · rcases written with ⟨tree, here, -⟩ | ⟨fault, tree, here, put⟩
      · cases wrote.symm.trans here
      · cases wrote.symm.trans here
        rw [put]
        refine ⟨?_, .inr ⟨⟨store, opened, room, absent, inside, count, full, short⟩, count, _, _,
          short, rfl, node⟩⟩
        exact (congrArg (fun result => result.2.has (store.place shard)) here).symm.trans created

/-- Any other shard fails and leaves the world as it was. -/
theorem putShard_refused (lost : ¬ world.Kept deviceName shard)
    (quiet : ¬ world.Writes deviceName shard) :
    ∃ reason, putShard deviceName shard world = (.err reason, world) := by
  cases opened : world.manager.stores[deviceName]? with
  | none => exact absurd (fun store found => nomatch opened.symm.trans found) lost
  | some store =>
      rw [putShard_opened opened]
      rcases ChunkStore.put_cases shard store world.tree with
        ⟨-, reason, put⟩ | ⟨room, present, -⟩ | ⟨room, absent, written⟩
      · rw [put]
        exact ⟨reason, Prod.ext rfl (stored_self opened)⟩
      · refine absurd (fun other found => ?_) lost
        cases opened.symm.trans found
        exact ⟨room, present⟩
      · have refused : ¬ (world.tree.node store.root = some .dir ∧
            world.tree.obstacle (store.place shard) ≠ some .denied) :=
          fun allowed => quiet ⟨store, opened, room, absent, allowed⟩
        obtain ⟨fault, failed⟩ := FileTree.write_refuses absent refused (shardToBytes shard)
        rcases written with ⟨tree, wrote, put⟩ | ⟨fault, tree, wrote, put⟩
        · cases wrote.symm.trans failed
        · cases wrote.symm.trans failed
          rw [put]
          exact ⟨_, Prod.ext rfl (stored_self opened)⟩

theorem Tears.not_accepts (tears : world.Tears deviceName shard) :
    ¬ world.Accepts deviceName shard := by
  rintro (kept | ⟨-, whole⟩)
  · exact kept.not_writes tears.writes
  · exact whole tears

/-- What putting a shard can do. -/
theorem putShard_outcomes (world : World hemera) (deviceName : String) (shard : Shard) :
    (world.Accepts deviceName shard ∧
      ∃ hash after, putShard deviceName shard world = (.ok hash, after)) ∨
    (world.Tears deviceName shard ∧ ∃ (store : ChunkStore hemera) (written : Nat) (reason : String)
      (tree : FileTree), world.manager.stores[deviceName]? = some store ∧
        written < (shardToBytes shard).length ∧
        putShard deviceName shard world = (.err reason, world.stored deviceName store tree) ∧
        tree.node = Function.update world.tree.node (store.place shard)
          (some (.file ((shardToBytes shard).take written)))) ∨
    ¬ world.Accepts deviceName shard ∧ ¬ world.Writes deviceName shard ∧
      ∃ reason, putShard deviceName shard world = (.err reason, world) := by
  by_cases kept : world.Kept deviceName shard
  · obtain ⟨hash, after, put, -⟩ := kept.put
    exact .inl ⟨.inl kept, hash, after, put⟩
  · by_cases writes : world.Writes deviceName shard
    · obtain ⟨store, opened, -, -, ⟨whole, put⟩ | ⟨torn, written, reason, tree, left⟩⟩ :=
        writes.put
      · exact .inl ⟨.inr ⟨writes, whole⟩, put⟩
      · exact .inr (.inl ⟨torn, store, written, reason, tree, opened, left⟩)
    · refine .inr (.inr ⟨?_, writes, putShard_refused kept writes⟩)
      rintro (held | ⟨new, -⟩)
      · exact kept held
      · exact writes new

theorem putShard_ok_iff : (∃ hash after, putShard deviceName shard world = (.ok hash, after)) ↔
    world.Accepts deviceName shard := by
  rcases putShard_outcomes world deviceName shard with
    ⟨accepts, put⟩ | ⟨torn, store, written, reason, tree, -, -, put, -⟩ | ⟨refused, -, reason, put⟩
  · exact iff_of_true put accepts
  · exact iff_of_false (by simp [put]) torn.not_accepts
  · exact iff_of_false (by simp [put]) refused

theorem putShard_tree_of_not_writes (quiet : ¬ world.Writes deviceName shard) :
    (putShard deviceName shard world).2.tree = world.tree := by
  by_cases kept : world.Kept deviceName shard
  · obtain ⟨hash, after, put, alike⟩ := kept.put
    rw [put]
    exact alike.tree
  · obtain ⟨reason, put⟩ := putShard_refused kept quiet
    rw [put]

end PutShard

section Distribute

variable {world between after : World hemera} {deviceNames : List String} {shards : List Shard}

/-- No shard leaves a new file once all the shards before it have changed nothing. -/
def WritesNothing (world : World hemera) (deviceNames : List String) (shards : List Shard) : Prop :=
  ∀ earlier shard later, shards = earlier ++ shard :: later →
    (∀ other ∈ earlier, world.Kept (deviceOf deviceNames other) other) →
    ¬ world.Writes (deviceOf deviceNames shard) shard

theorem writesNothing_nil : world.WritesNothing deviceNames [] := by
  intro earlier shard later split
  simp at split

theorem writesNothing_cons_iff {shard : Shard} {rest : List Shard} :
    world.WritesNothing deviceNames (shard :: rest) ↔
      ¬ world.Writes (deviceOf deviceNames shard) shard ∧
        (world.Kept (deviceOf deviceNames shard) shard → world.WritesNothing deviceNames rest) := by
  constructor
  · intro nothing
    refine ⟨nothing [] shard rest rfl (by simp), ?_⟩
    intro kept earlier other later split before
    refine nothing (shard :: earlier) other later (congrArg (shard :: ·) split) ?_
    intro each member
    rcases List.mem_cons.mp member with rfl | member
    · exact kept
    · exact before each member
  · rintro ⟨first, others⟩ earlier other later split before
    cases earlier with
    | nil =>
        cases split
        exact first
    | cons head earlier =>
        obtain ⟨rfl, rfl⟩ := List.cons.inj split
        exact others (before shard List.mem_cons_self) earlier other later rfl fun each member =>
          before each (List.mem_cons_of_mem _ member)

theorem distribute_cons_err {shard : Shard} {rest : List Shard} {reason : String}
    (failed : distribute deviceNames (shard :: rest) world = (.err reason, after)) :
    putShard (deviceOf deviceNames shard) shard world = (.err reason, after) ∨
      ∃ hash next, putShard (deviceOf deviceNames shard) shard world = (.ok hash, next) ∧
        distribute deviceNames rest next = (.err reason, after) := by
  rcases Action.bind_eq_err_iff.mp failed with here | ⟨hash, next, put, failed⟩
  · exact .inl here
  · rcases Action.bind_eq_err_iff.mp failed with later | ⟨hashes, last, -, returned⟩
    · exact .inr ⟨hash, next, put, later⟩
    · cases returned

/-- A failed run over the shards leaves the world untouched when no shard leaves
a new file: the first shard that changes anything is then the one that fails. -/
theorem distribute_untouched_iff {reason : String} (alike : world.Alike between)
    (failed : distribute deviceNames shards between = (.err reason, after)) :
    world.Untouched after ↔ world.WritesNothing deviceNames shards := by
  induction shards generalizing between with
  | nil => cases failed
  | cons shard rest ih =>
      rw [writesNothing_cons_iff, ← alike.kept_iff, ← alike.writes_iff]
      by_cases kept : between.Kept (deviceOf deviceNames shard) shard
      · obtain ⟨hash, next, put, same⟩ := kept.put
        have later : distribute deviceNames rest next = (.err reason, after) := by
          rcases distribute_cons_err failed with here | ⟨_, _, here, later⟩
          · cases put.symm.trans here
          · cases put.symm.trans here
            exact later
        rw [ih (alike.trans same) later]
        exact ⟨fun nothing => ⟨kept.not_writes, fun _ => nothing⟩, fun nothing => nothing.2 kept⟩
      · by_cases writes : between.Writes (deviceOf deviceNames shard) shard
        · obtain ⟨store, -, absent, created, -⟩ := writes.put
          refine iff_of_false ?_ fun nothing => nothing.1 writes
          intro untouched
          have grows : (putShard (deviceOf deviceNames shard) shard between).2.Grows after := by
            rcases distribute_cons_err failed with here | ⟨hash, next, here, later⟩
            · rw [here]
              exact .refl after
            · rw [here]
              exact (distribute_returned later).grows
          have there : after.tree.has (store.place shard) = true := grows.has created
          rw [FileTree.has, alike.tree, ← untouched.files] at absent
          cases absent.symm.trans there
        · obtain ⟨other, put⟩ := putShard_refused kept writes
          have same : after = between := by
            rcases distribute_cons_err failed with here | ⟨_, _, here, -⟩
            · cases put.symm.trans here
              rfl
            · cases put.symm.trans here
          rw [same]
          exact iff_of_true alike.untouched ⟨writes, fun held => absurd held kept⟩

end Distribute

theorem shardsOf_none_attached {world : World hemera} {nebu : Nebu} {diskName : String}
    {data : List UInt8} (none_attached : world.manager.deviceNames diskName = []) :
    world.shardsOf nebu diskName data = [] := by
  have uncoded : encode nebu data 0 1 = none := encode_eq_none_iff.mpr (by simp)
  rw [shardsOf, none_attached]
  cases world.manager.disks[diskName]? with
  | none => rfl
  | some config =>
      cases counted : checkedSub 0 (config.redundancy.failures 0) with
      | none => simp [counted]
      | some k =>
          obtain rfl : k = 0 := by
            have total := checkedSub_eq_some counted
            omega
          simp [counted, nextPowerOfTwo, uncoded]

/-- A `put_file` that fails leaves the registry and the stores as they were
exactly when no shard has left a new file before one fails. -/
theorem putFile_untouched_iff (nebu : Nebu) (merkle : HemeraTree) (now : UInt64)
    (diskName fileName : String) (data : List UInt8) (world : World hemera) (reason : String)
    (failed : (putFile nebu merkle now diskName fileName data world).1 = .err reason) :
    world.Untouched (putFile nebu merkle now diskName fileName data world).2 ↔
      world.WritesNothing (world.manager.deviceNames diskName)
        (world.shardsOf nebu diskName data) := by
  rcases putFile_cases nebu merkle now diskName fileName data world with
    ⟨missing, _, run⟩ | ⟨config, disk, ⟨none_attached, _, run⟩ | ⟨-, ⟨-, run⟩ | ⟨k, -, ⟨-, run⟩ |
      ⟨-, ⟨hashes, between, -, run⟩ | ⟨_, between, dealt, run⟩⟩⟩⟩⟩
  · have unmade : world.shardsOf nebu diskName data = [] := by simp [shardsOf, missing]
    rw [run, unmade]
    exact iff_of_true (Alike.refl world).untouched writesNothing_nil
  · rw [run, shardsOf_none_attached none_attached]
    exact iff_of_true (Alike.refl world).untouched writesNothing_nil
  · rw [run] at failed
    cases failed
  · rw [run] at failed
    cases failed
  · rw [run] at failed
    cases failed
  · rw [run]
    exact distribute_untouched_iff (.refl world) dealt

/-- The only device is too small for the shard. -/
theorem putFile_untouched_small_device :
    let world := bareWorld.run naiveNebu .truncating
      [.createDisk { name := "work", redundancy := .tolerate 0, shardCopies := 1 },
        .attach "card" "work" 4]
    (putFile naiveNebu .truncating 5 "work" "notes" [7] world).1 =
        .err "chunk store capacity exceeded" ∧
      world.Untouched (putFile naiveNebu .truncating 5 "work" "notes" [7] world).2 := by
  intro world
  have failed : (putFile naiveNebu .truncating 5 "work" "notes" [7] world).1 =
      .err "chunk store capacity exceeded" := by
    apply Action.void_err
    rw [Action.void, naiveNebu_eq]
    decide +kernel
  have made : world.shardsOf naiveNebu "work" [7] = [⟨0, [7]⟩] := by
    rw [naiveNebu_eq]
    decide +kernel
  have full : ∀ kept ∈ world.manager.stores.toList, 0 < kept.2.capacity ∧
      kept.2.capacity < satAdd kept.2.used (lenU64 (shardToBytes ⟨0, [7]⟩).length) := by
    decide +kernel
  refine ⟨failed, ?_⟩
  rw [putFile_untouched_iff naiveNebu .truncating 5 "work" "notes" [7] world _ failed, made,
    writesNothing_cons_iff]
  refine ⟨?_, fun _ => writesNothing_nil⟩
  rintro ⟨store, opened, room, -⟩
  exact room (full (_, store) (Std.ExtTreeMap.mem_toList_iff_getElem?_eq_some.mpr opened))

/-- The second device is too small for its shard, and the first keeps the chunk
of the file that was not stored. -/
theorem failed_put_leaves_chunk :
    let world := bareWorld.run naiveNebu .truncating
      [.createDisk { name := "work", redundancy := .tolerate 0, shardCopies := 1 },
        .attach "laptop" "work" 0, .attach "card" "work" 4]
    let stored := putFile naiveNebu .truncating 5 "work" "notes" [7] world
    stored.1.void = .err "chunk store capacity exceeded" ∧
      (world.manager.stores["laptop"]?.map fun store =>
        (store.used, store.has world.tree (digest .truncating ⟨0, [7]⟩))) = some (0, false) ∧
      (stored.2.manager.stores["laptop"]?.map fun store =>
        (store.used, store.has stored.2.tree (digest .truncating ⟨0, [7]⟩))) = some (8, true) := by
  rw [naiveNebu_eq]
  decide +kernel

end Foculus.VDisk.World

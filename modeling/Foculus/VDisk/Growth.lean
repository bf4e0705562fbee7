import Foculus.VDisk.Recovery

namespace Foculus.VDisk.World

open Data Erasure Store

/-! # What putting chunks leaves of a world

`put_file`, `rechunk` and `rebalance` only ever add chunks.  Whatever they
return, nothing that was stored is lost; what they add has its hash for a name,
unless a device is full and a write leaves the start of a chunk behind. -/

variable {hemera : Hemera}

/-- Nothing of the world is lost, and no device, disk or store is new. -/
structure Grows (world after : World hemera) : Prop where
  disks : after.manager.disks = world.manager.disks
  attachments : after.manager.attachments = world.manager.attachments
  obstacle : after.tree.obstacle = world.tree.obstacle
  files : ∀ {place node}, world.tree.node place = some node → after.tree.node place = some node
  opened : ∀ {name : String} {store : ChunkStore hemera}, world.manager.stores[name]? = some store →
    ∃ kept : ChunkStore hemera, after.manager.stores[name]? = some kept ∧ kept.root = store.root ∧
      ∀ hex, hex ∈ store.index → hex ∈ kept.index
  closed : ∀ {name : String}, world.manager.stores[name]? = none →
    after.manager.stores[name]? = none

/-- Every stored chunk matches its hash. -/
def Honest (world : World hemera) : Prop :=
  ∀ hash bytes, world.Stores (hemera.toHex hash) bytes →
    hemera.toHex (hemera.hash bytes) = hemera.toHex hash

/-- No store's device is full. -/
def Roomy (world : World hemera) : Prop :=
  ∀ (name : String) (store : ChunkStore hemera) (hash : Particle) (written : Nat),
    world.manager.stores[name]? = some store →
    world.tree.obstacle (hemera.toHex hash :: store.root) ≠ some (.full written)

namespace Grows

variable {world between after : World hemera}

theorem refl (world : World hemera) : world.Grows world where
  disks := rfl
  attachments := rfl
  obstacle := rfl
  files := id
  opened opened := ⟨_, opened, rfl, fun _ => id⟩
  closed := id

theorem trans (first : world.Grows between) (second : between.Grows after) :
    world.Grows after where
  disks := second.disks.trans first.disks
  attachments := second.attachments.trans first.attachments
  obstacle := second.obstacle.trans first.obstacle
  files found := second.files (first.files found)
  opened opened := by
    obtain ⟨middle, found, root, kept⟩ := first.opened opened
    obtain ⟨last, foundLast, rootLast, keptLast⟩ := second.opened found
    exact ⟨last, foundLast, rootLast.trans root, fun hex member => keptLast hex (kept hex member)⟩
  closed missing := second.closed (first.closed missing)

theorem mem_stores (grows : world.Grows after) {name : String}
    (present : name ∈ world.manager.stores) : name ∈ after.manager.stores := by
  rw [Std.ExtTreeMap.mem_iff_isSome_getElem?, Option.isSome_iff_exists] at present ⊢
  obtain ⟨store, opened⟩ := present
  obtain ⟨kept, found, -⟩ := grows.opened opened
  exact ⟨kept, found⟩

theorem has (grows : world.Grows after) {place : Location}
    (present : world.tree.has place = true) : after.tree.has place = true := by
  obtain ⟨node, found⟩ := Option.isSome_iff_exists.mp present
  rw [FileTree.has, grows.files found]
  rfl

theorem roomy (grows : world.Grows after) (roomy : world.Roomy) : after.Roomy := by
  intro name store hash written opened
  cases before : world.manager.stores[name]? with
  | none =>
      rw [grows.closed before] at opened
      cases opened
  | some old =>
      obtain ⟨kept, found, root, -⟩ := grows.opened before
      cases found.symm.trans opened
      rw [grows.obstacle, root]
      exact roomy name old hash written before

end Grows

/-- Some of the shards were put: the world grows and its registry stays, and on
devices that are not full the only new chunks are those of the shards. -/
structure Puts (shards : List Shard) (world after : World hemera) : Prop where
  grows : world.Grows after
  registry : after.manager.registry = world.manager.registry
  chunks : world.Roomy → ∀ {hex bytes}, after.Stores hex bytes → world.Stores hex bytes ∨
    ∃ shard ∈ shards, hex = chunkName hemera shard ∧ bytes = shardToBytes shard
  files : world.Roomy → ∀ {hex place bytes}, after.tree.node (hex :: place) = some (.file bytes) →
    world.tree.node (hex :: place) = some (.file bytes) ∨
      ∃ shard ∈ shards, hex = chunkName hemera shard ∧ bytes = shardToBytes shard

namespace Puts

variable {shards : List Shard} {world between after : World hemera}

theorem refl (shards : List Shard) (world : World hemera) : Puts shards world world :=
  ⟨.refl world, rfl, fun _ _ _ => .inl, fun _ _ _ _ => .inl⟩

theorem trans (first : Puts shards world between) (second : Puts shards between after) :
    Puts shards world after where
  grows := first.grows.trans second.grows
  registry := second.registry.trans first.registry
  chunks roomy _ _ held := by
    rcases second.chunks (first.grows.roomy roomy) held with middle | new
    · exact first.chunks roomy middle
    · exact .inr new
  files roomy _ _ _ found := by
    rcases second.files (first.grows.roomy roomy) found with middle | new
    · exact first.files roomy middle
    · exact .inr new

/-- The chunks keep matching their hashes. -/
theorem honest (puts : Puts shards world after) (roomy : world.Roomy) (honest : world.Honest) :
    after.Honest := by
  intro hash bytes held
  rcases puts.chunks roomy held with before | ⟨shard, _, named, rfl⟩
  · exact honest hash bytes before
  · exact named.symm

end Puts

section PutShard

variable {world : World hemera} {deviceName : String} {store : ChunkStore hemera}

/-- The world with another store for the device and other files. -/
def stored (world : World hemera) (deviceName : String) (store : ChunkStore hemera)
    (tree : FileTree) : World hemera where
  manager := { world.manager with stores := world.manager.stores.insert deviceName store }
  tree := tree

theorem putShard_missing (missing : world.manager.stores[deviceName]? = none) (shard : Shard) :
    putShard deviceName shard world = (.ok none, world) := by
  simp only [putShard, missing]

theorem putShard_opened (opened : world.manager.stores[deviceName]? = some store) (shard : Shard) :
    putShard deviceName shard world =
      (some <$> (ChunkStore.put shard (store, world.tree)).1,
        world.stored deviceName (ChunkStore.put shard (store, world.tree)).2.1
          (ChunkStore.put shard (store, world.tree)).2.2) := by
  simp only [putShard, opened]
  rfl

theorem stored_getElem? (name : String) (next : ChunkStore hemera) (tree : FileTree) :
    (world.stored deviceName next tree).manager.stores[name]? =
      if deviceName = name then some next else world.manager.stores[name]? := by
  rw [stored, Std.ExtTreeMap.getElem?_insert]
  by_cases same : deviceName = name
  · rw [if_pos same, same, if_pos Std.ReflCmp.compare_self]
  · rw [if_neg same, if_neg fun equal => same (Std.LawfulEqCmp.eq_of_compare equal)]

theorem stored_self (opened : world.manager.stores[deviceName]? = some store) :
    world.stored deviceName store world.tree = world := by
  have same : world.manager.stores.insert deviceName store = world.manager.stores := by
    apply Std.ExtTreeMap.ext_getElem?
    intro name
    have found := @stored_getElem? hemera world deviceName name store world.tree
    rw [stored] at found
    rw [found]
    split_ifs with same
    · rw [← same, opened]
    · rfl
  rw [stored, same]

/-- Each store of the world is still open, and related to what it was if the new one is. -/
theorem stored_opened (opened : world.manager.stores[deviceName]? = some store)
    (next : ChunkStore hemera) (tree : FileTree)
    (related : ChunkStore hemera → ChunkStore hemera → Prop) (same : ∀ store, related store store)
    (moved : related store next) {name : String} {old : ChunkStore hemera}
    (found : world.manager.stores[name]? = some old) :
    ∃ kept, (world.stored deviceName next tree).manager.stores[name]? = some kept ∧
      related old kept := by
  rw [stored_getElem?]
  split_ifs with here
  · cases here
    cases opened.symm.trans found
    exact ⟨next, rfl, moved⟩
  · exact ⟨old, found, same old⟩

theorem stored_closed (opened : world.manager.stores[deviceName]? = some store)
    (next : ChunkStore hemera) (tree : FileTree) {name : String}
    (missing : world.manager.stores[name]? = none) :
    (world.stored deviceName next tree).manager.stores[name]? = none := by
  rw [stored_getElem?]
  split_ifs with here
  · cases here
    cases opened.symm.trans missing
  · exact missing

theorem Grows.of_stored (opened : world.manager.stores[deviceName]? = some store)
    {next : ChunkStore hemera} {tree : FileTree} (root : next.root = store.root)
    (index : ∀ hex, hex ∈ store.index → hex ∈ next.index)
    (obstacle : tree.obstacle = world.tree.obstacle)
    (files : ∀ {place node}, world.tree.node place = some node → tree.node place = some node) :
    world.Grows (world.stored deviceName next tree) where
  disks := rfl
  attachments := rfl
  obstacle := obstacle
  files := files
  opened found := stored_opened opened next tree
    (fun old kept => kept.root = old.root ∧ ∀ hex, hex ∈ old.index → hex ∈ kept.index)
    (fun _ => ⟨rfl, fun _ => id⟩) ⟨root, index⟩ found
  closed := stored_closed opened next tree

/-- What the stores return afterwards they returned before, or it is in the
index or the directory of the new store. -/
theorem stores_of_stored (opened : world.manager.stores[deviceName]? = some store)
    {next : ChunkStore hemera} {tree : FileTree} (root : next.root = store.root)
    {hex : String} {bytes : List UInt8}
    (held : (world.stored deviceName next tree).Stores hex bytes) :
    next.index[hex]? = some bytes ∨ world.Stores hex bytes ∨
      ∃ (name : String) (old : ChunkStore hemera), world.manager.stores[name]? = some old ∧
        tree.node (hex :: old.root) = some (.file bytes) := by
  obtain ⟨name, kept, found, held⟩ := held
  rw [stored_getElem?] at found
  split_ifs at found with same
  · cases found
    rcases held with indexed | file
    · exact .inl indexed
    · rw [root] at file
      exact .inr (.inr ⟨deviceName, store, opened, file⟩)
  · rcases held with indexed | file
    · exact .inr (.inl ⟨name, kept, found, .inl indexed⟩)
    · exact .inr (.inr ⟨name, kept, found, file⟩)

theorem indexed_mono (store : ChunkStore hemera) (bytes : List UInt8) {hex : String}
    (member : hex ∈ store.index) : hex ∈ (store.indexed bytes).index :=
  Std.ExtTreeMap.mem_insert.mpr (.inr member)

/-- A chunk that is put whole: the store has it in its index, and the tree is as
before or has it as a file. -/
theorem Puts.of_indexed (opened : world.manager.stores[deviceName]? = some store)
    {next : ChunkStore hemera} {tree : FileTree} (root : next.root = store.root)
    {shards : List Shard} {shard : Shard} (member : shard ∈ shards)
    (index : next.index = (store.indexed (shardToBytes shard)).index)
    (obstacle : tree.obstacle = world.tree.obstacle)
    (files : tree.node = world.tree.node ∨ world.tree.has (store.place shard) = false ∧
      tree.node = Function.update world.tree.node (store.place shard)
        (some (.file (shardToBytes shard)))) :
    Puts shards world (world.stored deviceName next tree) where
  grows := by
    refine .of_stored opened root (fun hex kept => index ▸ indexed_mono store _ kept) obstacle ?_
    intro place node present
    rcases files with same | ⟨absent, written⟩
    · rw [same, present]
    · exact update_keeps absent written present
  registry := rfl
  chunks := by
    intro _ hex bytes held
    rcases stores_of_stored opened root held with indexed | before | ⟨name, old, found, file⟩
    · rw [index, ChunkStore.indexed, Std.ExtTreeMap.getElem?_insert] at indexed
      split_ifs at indexed with same
      · cases indexed
        exact .inr ⟨shard, member, (Std.LawfulEqCmp.eq_of_compare same).symm, rfl⟩
      · exact .inl ⟨deviceName, store, opened, .inl indexed⟩
    · exact .inl before
    · rcases files with same | ⟨-, written⟩
      · rw [same] at file
        exact .inl ⟨name, old, found, .inr file⟩
      · rw [written, Function.update_apply] at file
        split_ifs at file with here
        · cases file
          exact .inr ⟨shard, member, (List.cons.inj here).1, rfl⟩
        · exact .inl ⟨name, old, found, .inr file⟩
  files := by
    intro _ hex place bytes found
    rcases files with same | ⟨-, written⟩
    · exact .inl (same ▸ found)
    · change tree.node (hex :: place) = some (.file bytes) at found
      rw [written, Function.update_apply] at found
      split_ifs at found with here
      · cases found
        exact .inr ⟨shard, member, (List.cons.inj here).1, rfl⟩
      · exact .inl found

/-- Putting a shard never aborts, and whatever it returns nothing is lost. -/
theorem putShard_puts (world : World hemera) (deviceName : String) {shards : List Shard}
    {shard : Shard} (member : shard ∈ shards) :
    (putShard deviceName shard).Triple (Puts shards world) (fun _ => Puts shards world)
      (Puts shards world) (fun _ => False) := by
  intro between puts
  cases opened : between.manager.stores[deviceName]? with
  | none =>
      rw [putShard_missing opened]
      exact puts
  | some store =>
      rw [putShard_opened opened]
      rcases ChunkStore.put_cases shard store between.tree with
        ⟨-, reason, put⟩ | ⟨-, -, put⟩ | ⟨-, absent, ⟨tree, written, put⟩ | ⟨fault, tree, failed, put⟩⟩
      · rw [put]
        change Puts shards world (between.stored deviceName store between.tree)
        rw [stored_self opened]
        exact puts
      · rw [put]
        change Puts shards world (between.stored deviceName
          (store.indexed (shardToBytes shard)) between.tree)
        refine puts.trans (.of_indexed opened ?_ member ?_ rfl (.inl rfl)) <;> rfl
      · rw [put]
        rcases FileTree.write_cases (store.place shard) (shardToBytes shard) between.tree with
          ⟨after, wrote, obstacle, node⟩ | ⟨fault, wrote⟩ | ⟨fault, _, after, wrote, -⟩
        · cases written.symm.trans wrote
          change Puts shards world (between.stored deviceName ((store.occupied
            (lenU64 (shardToBytes shard).length)).indexed (shardToBytes shard)) tree)
          refine puts.trans (.of_indexed opened ?_ member ?_ obstacle (.inr ⟨absent, node⟩)) <;> rfl
        · cases written.symm.trans wrote
        · cases written.symm.trans wrote
      · rw [put]
        change Puts shards world (between.stored deviceName store tree)
        rcases FileTree.write_cases (store.place shard) (shardToBytes shard) between.tree with
          ⟨after, wrote, -⟩ | ⟨fault, wrote⟩ | ⟨fault, count, after, wrote, full, obstacle, node⟩
        · cases failed.symm.trans wrote
        · cases failed.symm.trans wrote
          rw [stored_self opened]
          exact puts
        · cases failed.symm.trans wrote
          refine puts.trans ⟨.of_stored opened rfl (fun _ => id) obstacle
            (update_keeps absent node), rfl, fun roomy => ?_, fun roomy => ?_⟩
          · exact absurd full (roomy deviceName store (digest hemera shard) count opened)
          · exact absurd full (roomy deviceName store (digest hemera shard) count opened)

theorem putShard_grows (world : World hemera) (deviceName : String) (shard : Shard) :
    world.Grows (putShard deviceName shard world).2 := by
  have puts := putShard_puts world deviceName (List.mem_singleton_self shard) world
    (.refl [shard] world)
  rcases called : putShard deviceName shard world with ⟨outcome, after⟩
  rw [called] at puts
  cases outcome with
  | ok hash => exact puts.grows
  | err reason => exact puts.grows
  | panic => exact puts.elim

end PutShard

theorem distribute_puts (world : World hemera) (deviceNames : List String)
    {shards dealt : List Shard} (members : ∀ shard ∈ dealt, shard ∈ shards) :
    (distribute deviceNames dealt).Triple (Puts shards world) (fun _ => Puts shards world)
      (Puts shards world) (fun _ => False) := by
  induction dealt with
  | nil => exact Action.triple_pure fun _ => id
  | cons shard rest ih =>
      refine Action.triple_bind (putShard_puts world _ (members shard List.mem_cons_self))
        fun hash => ?_
      refine Action.triple_bind (ih fun other member =>
        members other (List.mem_cons_of_mem _ member)) fun hashes => ?_
      exact Action.triple_pure fun _ => id

/-- Whether it succeeds or fails, the world it leaves has some of the shards put. -/
theorem distribute_returned {world after : World hemera} {deviceNames : List String}
    {shards : List Shard} {outcome : Outcome String (List String)}
    (run : distribute deviceNames shards world = (outcome, after)) : Puts shards world after := by
  have puts := distribute_puts world deviceNames (fun _ => id) world (.refl shards world)
  rw [run] at puts
  cases outcome with
  | ok hashes => exact puts
  | err reason => exact puts
  | panic => exact puts.elim

/-- What `put_file` can do. -/
theorem putFile_cases (nebu : Nebu) (merkle : HemeraTree) (now : UInt64)
    (diskName fileName : String) (data : List UInt8) (world : World hemera) :
    (world.manager.disks[diskName]? = none ∧ ∃ reason,
      putFile nebu merkle now diskName fileName data world = (.err reason, world)) ∨
    ∃ config, world.manager.disks[diskName]? = some config ∧
      (world.manager.deviceNames diskName = [] ∧ (∃ reason,
          putFile nebu merkle now diskName fileName data world = (.err reason, world)) ∨
        world.manager.deviceNames diskName ≠ [] ∧
          ((world.manager.deviceNames diskName).length < config.redundancy.failures
              (world.manager.deviceNames diskName).length ∧
            putFile nebu merkle now diskName fileName data world = (.panic, world) ∨
          ∃ k, (world.manager.deviceNames diskName).length = k + config.redundancy.failures
              (world.manager.deviceNames diskName).length ∧
            (encode nebu data k (nextPowerOfTwo (world.manager.deviceNames diskName).length) =
                none ∧ putFile nebu merkle now diskName fileName data world = (.panic, world) ∨
              encode nebu data k (nextPowerOfTwo (world.manager.deviceNames diskName).length) =
                  some (world.shardsOf nebu diskName data) ∧
                ((∃ hashes between, distribute (world.manager.deviceNames diskName)
                    (world.shardsOf nebu diskName data) world = (.ok hashes, between) ∧
                  putFile nebu merkle now diskName fileName data world =
                    (.ok (Das.commit merkle (world.shardsOf nebu diskName data) k data.length),
                      between.register (fileEntry merkle hemera fileName data k
                        (nextPowerOfTwo (world.manager.deviceNames diskName).length) hashes now
                        (Das.commit merkle (world.shardsOf nebu diskName data) k data.length) 1))) ∨
                  ∃ reason between, distribute (world.manager.deviceNames diskName)
                    (world.shardsOf nebu diskName data) world = (.err reason, between) ∧
                  putFile nebu merkle now diskName fileName data world =
                    (.err reason, between))))) := by
  rw [putFile, Action.get_bind]
  cases disk : world.manager.disks[diskName]? with
  | none => exact .inl ⟨rfl, _, rfl⟩
  | some config =>
      refine .inr ⟨config, rfl, ?_⟩
      by_cases none_attached : world.manager.deviceNames diskName = []
      · refine .inl ⟨none_attached, "no devices attached to disk", ?_⟩
        simp only [none_attached, List.length_nil, if_true]
        rfl
      · refine .inr ⟨none_attached, ?_⟩
        simp only [List.length_eq_zero_iff, if_neg none_attached]
        cases counted : checkedSub (world.manager.deviceNames diskName).length
            (config.redundancy.failures (world.manager.deviceNames diskName).length) with
        | none => exact .inl ⟨checkedSub_eq_none.mp counted, rfl⟩
        | some k =>
            refine .inr ⟨k, checkedSub_eq_some counted, ?_⟩
            rw [Action.expect_some_bind]
            have made : world.shardsOf nebu diskName data = (encode nebu data k
                (nextPowerOfTwo (world.manager.deviceNames diskName).length)).getD [] := by
              simp [shardsOf, disk, counted]
            cases coded : encode nebu data k
                (nextPowerOfTwo (world.manager.deviceNames diskName).length) with
            | none => exact .inl ⟨rfl, rfl⟩
            | some shards =>
                right
                rw [Action.expect_some_bind]
                rw [coded, Option.getD_some] at made
                rw [made]
                refine ⟨rfl, ?_⟩
                have dealt := distribute_puts world (world.manager.deviceNames diskName)
                  (fun _ => id) world (.refl shards world)
                rcases called : distribute (world.manager.deviceNames diskName) shards world with
                  ⟨outcome, between⟩
                rw [called] at dealt
                cases outcome with
                | ok hashes => exact .inl ⟨hashes, between, rfl, Action.bind_ok called⟩
                | err reason => exact .inr ⟨reason, between, rfl, Action.bind_err called⟩
                | panic => exact dealt.elim

theorem Grows.register {world after : World hemera} (grows : world.Grows after) (entry : FileEntry) :
    world.Grows (after.register entry) :=
  ⟨grows.disks, grows.attachments, grows.obstacle, grows.files, grows.opened, grows.closed⟩

/-- Whatever `put_file` returns, it has put some of the shards, and may have
registered the file. -/
theorem putFile_puts (nebu : Nebu) (merkle : HemeraTree) (now : UInt64)
    (diskName fileName : String) (data : List UInt8) (world : World hemera) :
    ∃ between, Puts (world.shardsOf nebu diskName data) world between ∧
      ((putFile nebu merkle now diskName fileName data world).2 = between ∨
        ∃ entry, (putFile nebu merkle now diskName fileName data world).2 =
          between.register entry) := by
  have start := Puts.refl (world.shardsOf nebu diskName data) world
  rcases putFile_cases nebu merkle now diskName fileName data world with
    ⟨-, reason, run⟩ | ⟨config, -, ⟨-, reason, run⟩ | ⟨-, ⟨-, run⟩ | ⟨k, -, ⟨-, run⟩ |
      ⟨-, ⟨hashes, between, dealt, run⟩ | ⟨reason, between, dealt, run⟩⟩⟩⟩⟩
  · exact ⟨world, start, .inl (by rw [run])⟩
  · exact ⟨world, start, .inl (by rw [run])⟩
  · exact ⟨world, start, .inl (by rw [run])⟩
  · exact ⟨world, start, .inl (by rw [run])⟩
  · exact ⟨between, distribute_returned dealt, .inr ⟨_, by rw [run]⟩⟩
  · exact ⟨between, distribute_returned dealt, .inl (by rw [run])⟩

theorem putFile_grows (nebu : Nebu) (merkle : HemeraTree) (now : UInt64)
    (diskName fileName : String) (data : List UInt8) (world : World hemera) :
    world.Grows (putFile nebu merkle now diskName fileName data world).2 := by
  obtain ⟨between, puts, after | ⟨entry, after⟩⟩ :=
    putFile_puts nebu merkle now diskName fileName data world
  · exact after ▸ puts.grows
  · exact after ▸ puts.grows.register entry

section Rechunk

variable {nebu : Nebu} {merkle : HemeraTree} {stores : Walk} {now : UInt64} {config : DiskConfig}
  {deviceNames : List String} {k n : Nat} {fileName : String} {world : World hemera}

/-- The entry that `rechunk` writes for a file. -/
def rewritten (merkle : HemeraTree) (hemera : Hemera) (now : UInt64) (config : DiskConfig)
    (k n : Nat) (fileName : String) (data : List UInt8) (shards : List Shard)
    (hashes : List String) (registry : GSet) : FileEntry :=
  fileEntry merkle hemera fileName data k n hashes
    (max now (satAdd ((registry.getRaw fileName).elim 0 FileEntry.timestamp) 1))
    (Das.commit merkle shards k data.length) config.shardCopies

/-- What `rechunk` does to one file. -/
theorem rechunkFile_spec (world : World hemera) :
    (rechunkFile nebu merkle stores now config deviceNames k n fileName).Triple (· = world)
      (fun done after =>
        (∃ reason, world.getFile nebu stores fileName = .err reason) ∧ done = false ∧
          after = world ∨
        done = true ∧ ∃ data shards hashes between,
          world.getFile nebu stores fileName = .ok data ∧ encode nebu data k n = some shards ∧
          distribute deviceNames shards world = (.ok hashes, between) ∧
          after = between.register (rewritten merkle hemera now config k n fileName data shards
            hashes world.manager.registry))
      (fun after => ∃ data shards, world.getFile nebu stores fileName = .ok data ∧
        encode nebu data k n = some shards ∧ Puts shards world after)
      (fun after => after = world ∧ (world.getFile nebu stores fileName = .panic ∨
        ∃ data, world.getFile nebu stores fileName = .ok data ∧ encode nebu data k n = none)) := by
  refine Action.triple_get fun state same => ?_
  rw [same]
  cases read : world.getFile nebu stores fileName with
  | err reason =>
      refine Action.triple_pure ?_
      rintro after rfl
      exact .inl ⟨⟨reason, rfl⟩, rfl, rfl⟩
  | panic =>
      rintro after rfl
      exact ⟨rfl, .inl rfl⟩
  | ok data =>
      refine Action.triple_lift_expect ?_ ?_
      · rintro uncoded after rfl
        exact ⟨rfl, .inr ⟨data, rfl, uncoded⟩⟩
      · intro shards coded state same
        rw [same]
        have dealt := distribute_puts world deviceNames (fun _ => id) world (.refl shards world)
        rcases called : distribute deviceNames shards world with ⟨outcome, between⟩
        rw [called] at dealt
        cases outcome with
        | ok hashes =>
            rw [Action.bind_ok called, Action.modify_bind]
            refine .inr ⟨rfl, data, shards, hashes, between, rfl, coded, called, ?_⟩
            rw [rewritten, dealt.registry]
        | err reason =>
            rw [Action.bind_err called]
            exact ⟨data, shards, rfl, coded, dealt⟩
        | panic => exact dealt.elim

/-- What every round keeps, the loop keeps. -/
theorem rechunkFiles_triple {round : String → Action (World hemera) String Bool}
    {invariant aborted : World hemera → Prop} (fileNames : List String)
    (kept : ∀ fileName ∈ fileNames,
      (round fileName).Triple invariant (fun _ => invariant) invariant aborted) :
    (rechunkFiles round fileNames).Triple invariant (fun _ => invariant) invariant aborted := by
  induction fileNames with
  | nil => exact Action.triple_pure fun _ => id
  | cons fileName rest ih =>
      refine Action.triple_bind (kept fileName List.mem_cons_self) fun rewritten => ?_
      refine Action.triple_bind (ih fun other member => kept other (List.mem_cons_of_mem _ member)) ?_
      exact fun counts => Action.triple_pure fun _ => id

/-- But for what it counts, the loop over the files is a plain loop. -/
theorem rechunkFiles_void (round : String → Action (World hemera) String Bool)
    (fileNames : List String) :
    (rechunkFiles round fileNames).void = Action.each (fun fileName => (round fileName).void)
      fileNames := by
  induction fileNames with
  | nil => rfl
  | cons first rest ih =>
      rw [rechunkFiles, Action.each, Action.void_then, Action.void_bind, ← ih]
      simp only [Action.void_map]

/-- The names of the files whose parameters are not those of the disk. -/
def outdated (world : World hemera) (files : Walk) (k n : Nat) : List String :=
  ((world.manager.entries files).filter fun entry => entry.k ≠ k ∨ entry.n ≠ n).map FileEntry.name

/-- The rounds of `rechunk` over files. -/
def rounds (nebu : Nebu) (merkle : HemeraTree) (stores : Walk) (clock : String → UInt64)
    (config : DiskConfig) (deviceNames : List String) (k : Nat) (fileNames : List String) :
    Action (World hemera) String (Nat × Nat) :=
  rechunkFiles (fun fileName => rechunkFile nebu merkle stores (clock fileName) config deviceNames k
    (nextPowerOfTwo deviceNames.length) fileName) fileNames

/-- What every round keeps, whatever it returns, the rounds keep. -/
theorem rounds_keeps {clock : String → UInt64} {invariant : World hemera → Prop}
    {fileNames : List String}
    (kept : ∀ fileName ∈ fileNames, (rechunkFile nebu merkle stores (clock fileName) config
      deviceNames k (nextPowerOfTwo deviceNames.length) fileName).Keeps invariant) :
    (rounds nebu merkle stores clock config deviceNames k fileNames).Keeps invariant :=
  Action.keeps_iff_triple.mpr (rechunkFiles_triple fileNames fun fileName member =>
    Action.keeps_iff_triple.mp (kept fileName member))

/-- What `rechunk` can do. -/
theorem rechunk_cases (nebu : Nebu) (merkle : HemeraTree) (stores files : Walk)
    (clock : String → UInt64) (diskName : String) (world : World hemera) :
    (world.manager.disks[diskName]? = none ∧ ∃ reason,
      rechunk nebu merkle stores files clock diskName world = (.err reason, world)) ∨
    ∃ config, world.manager.disks[diskName]? = some config ∧
      ((world.manager.deviceNames diskName).length < 2 ∧
          rechunk nebu merkle stores files clock diskName world = (.ok (0, 0), world) ∨
        2 ≤ (world.manager.deviceNames diskName).length ∧
          ((world.manager.deviceNames diskName).length < config.redundancy.failures
              (world.manager.deviceNames diskName).length ∧
            rechunk nebu merkle stores files clock diskName world = (.panic, world) ∨
          config.redundancy.failures (world.manager.deviceNames diskName).length ≤
              (world.manager.deviceNames diskName).length ∧
            rechunk nebu merkle stores files clock diskName world =
              rounds nebu merkle stores clock config (world.manager.deviceNames diskName)
                ((world.manager.deviceNames diskName).length -
                  config.redundancy.failures (world.manager.deviceNames diskName).length)
                (world.outdated files ((world.manager.deviceNames diskName).length -
                    config.redundancy.failures (world.manager.deviceNames diskName).length)
                  (nextPowerOfTwo (world.manager.deviceNames diskName).length)) world)) := by
  rw [rechunk, Action.get_bind]
  cases disk : world.manager.disks[diskName]? with
  | none => exact .inl ⟨rfl, _, rfl⟩
  | some config =>
      refine .inr ⟨config, rfl, ?_⟩
      by_cases few : (world.manager.deviceNames diskName).length < 2
      · refine .inl ⟨few, ?_⟩
        simp only [if_pos few]
        rfl
      · refine .inr ⟨Nat.not_lt.mp few, ?_⟩
        simp only [if_neg few]
        cases counted : checkedSub (world.manager.deviceNames diskName).length
            (config.redundancy.failures (world.manager.deviceNames diskName).length) with
        | none => exact .inl ⟨checkedSub_eq_none.mp counted, rfl⟩
        | some k =>
            have total := checkedSub_eq_some counted
            obtain rfl : k = (world.manager.deviceNames diskName).length -
                config.redundancy.failures (world.manager.deviceNames diskName).length := by
              omega
            exact .inr ⟨by omega, rfl⟩

/-- What the rounds keep, whatever they return, `rechunk` keeps. -/
theorem rechunk_keeps {files : Walk} {clock : String → UInt64} {diskName : String}
    (invariant : World hemera → Prop) (held : invariant world)
    (kept : ∀ config, world.manager.disks[diskName]? = some config →
      2 ≤ (world.manager.deviceNames diskName).length →
      invariant (rounds nebu merkle stores clock config (world.manager.deviceNames diskName)
        ((world.manager.deviceNames diskName).length -
          config.redundancy.failures (world.manager.deviceNames diskName).length)
        (world.outdated files ((world.manager.deviceNames diskName).length -
            config.redundancy.failures (world.manager.deviceNames diskName).length)
          (nextPowerOfTwo (world.manager.deviceNames diskName).length)) world).2) :
    invariant (rechunk nebu merkle stores files clock diskName world).2 := by
  rcases rechunk_cases nebu merkle stores files clock diskName world with
    ⟨-, reason, run⟩ | ⟨config, disk, ⟨-, run⟩ | ⟨two, ⟨-, run⟩ | ⟨-, run⟩⟩⟩
  · rwa [run]
  · rwa [run]
  · rwa [run]
  · rw [run]
    exact kept config disk two

/-- On a disk with devices to spare, `rechunk` is its rounds. -/
theorem rechunk_run {files : Walk} {clock : String → UInt64} {diskName : String}
    (disk : world.manager.disks[diskName]? = some config)
    (two : 2 ≤ (world.manager.deviceNames diskName).length)
    (tolerated : config.redundancy.failures (world.manager.deviceNames diskName).length ≤
      (world.manager.deviceNames diskName).length) :
    rechunk nebu merkle stores files clock diskName world =
      rounds nebu merkle stores clock config (world.manager.deviceNames diskName)
        ((world.manager.deviceNames diskName).length -
          config.redundancy.failures (world.manager.deviceNames diskName).length)
        (world.outdated files ((world.manager.deviceNames diskName).length -
            config.redundancy.failures (world.manager.deviceNames diskName).length)
          (nextPowerOfTwo (world.manager.deviceNames diskName).length)) world := by
  rcases rechunk_cases nebu merkle stores files clock diskName world with
    ⟨missing, -⟩ | ⟨found, known, ⟨few, -⟩ | ⟨-, ⟨below, -⟩ | ⟨-, run⟩⟩⟩
  · rw [disk] at missing
    cases missing
  · omega
  · cases disk.symm.trans known
    omega
  · cases disk.symm.trans known
    exact run

/-- A run of `rechunk` that finds one file to rewrite. -/
theorem rechunk_single {files : Walk} {clock : String → UInt64} {diskName : String}
    {data : List UInt8} {shards : List Shard}
    (disk : world.manager.disks[diskName]? = some config)
    (two : 2 ≤ (world.manager.deviceNames diskName).length)
    (counted : checkedSub (world.manager.deviceNames diskName).length
      (config.redundancy.failures (world.manager.deviceNames diskName).length) = some k)
    (only : world.outdated files k (nextPowerOfTwo (world.manager.deviceNames diskName).length) =
      [fileName])
    (read : world.getFile nebu stores fileName = .ok data)
    (coded : encode nebu data k (nextPowerOfTwo (world.manager.deviceNames diskName).length) =
      some shards) :
    rechunk nebu merkle stores files clock diskName world = (do
      let shardHashes ← distribute (world.manager.deviceNames diskName) shards
      Action.modify fun between => between.register (rewritten merkle hemera (clock fileName) config k
        (nextPowerOfTwo (world.manager.deviceNames diskName).length) fileName data shards shardHashes
        between.manager.registry)
      return (1, 0)) world := by
  have total := checkedSub_eq_some counted
  have positions : (world.manager.deviceNames diskName).length - config.redundancy.failures
      (world.manager.deviceNames diskName).length = k := by omega
  have round : rechunkFile nebu merkle stores (clock fileName) config
      (world.manager.deviceNames diskName) k
      (nextPowerOfTwo (world.manager.deviceNames diskName).length) fileName world =
      (distribute (world.manager.deviceNames diskName) shards >>= fun shardHashes => do
        Action.modify fun between => between.register (rewritten merkle hemera (clock fileName) config
          k (nextPowerOfTwo (world.manager.deviceNames diskName).length) fileName data shards
          shardHashes between.manager.registry)
        return true) world := by
    rw [rechunkFile, Action.get_bind, read]
    simp only [coded, Action.expect_some_bind, rewritten]
  rw [rechunk_run disk two (by omega), positions, only, rounds, rechunkFiles, rechunkFiles]
  rcases called : distribute (world.manager.deviceNames diskName) shards world with
    ⟨outcome, between⟩
  cases outcome with
  | ok hashes =>
      rw [Action.bind_ok called] at round ⊢
      exact Action.bind_ok round
  | err reason =>
      rw [Action.bind_err called] at round ⊢
      exact Action.bind_err round
  | panic =>
      rw [Action.bind_panic called] at round ⊢
      exact Action.bind_panic round

end Rechunk

end Foculus.VDisk.World

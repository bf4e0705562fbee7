import Foculus.VDisk.Reading
import Foculus.VDisk.Rounds

namespace Foculus.VDisk

open Data Erasure Store

/-! # What a file survives while `rechunk` runs

A run of `rechunk` only adds chunks, and an entry that it writes names chunks that
are all stored.  What can damage a file is a chunk that is torn because the device
it is written to is full. -/

variable {hemera : Hemera} {nebu : Nebu}

namespace World

/-- Putting the shard leaves a torn chunk that a store returns: the chunk is not in the
index of each store of the directory. -/
def Spoils (world : World hemera) (deviceName : String) (shard : Shard) : Prop :=
  world.Tears deviceName shard ∧ ∃ (store other : ChunkStore hemera) (name : String),
    world.manager.stores[deviceName]? = some store ∧
    world.manager.stores[name]? = some other ∧ other.root = store.root ∧
    chunkName hemera shard ∉ other.index

section Torn

variable {world : World hemera} {deviceName : String} {store : ChunkStore hemera} {shard : Shard}
  {tree : FileTree} {torn : List UInt8}

theorem stored_manager (opened : world.manager.stores[deviceName]? = some store) (tree : FileTree) :
    (world.stored deviceName store tree).manager = world.manager := by
  have same : (world.stored deviceName store world.tree).manager = world.manager := by
    rw [stored_self opened]
  exact same

/-- A file in which no chunk is torn is read as before. -/
theorem getFile_of_torn (opened : world.manager.stores[deviceName]? = some store)
    (node : tree.node = Function.update world.tree.node (store.place shard) (some (.file torn)))
    {name : String} {entry : FileEntry} (registered : world.manager.registry.get name = some entry)
    (clear : ∀ hex ∈ entry.shardHashes, ∀ hash, hexToHash hex = .ok hash →
      hemera.toHex hash = chunkName hemera shard → ∀ (other : ChunkStore hemera) (holder : String),
      world.manager.stores[holder]? = some other → other.root = store.root →
      chunkName hemera shard ∈ other.index) (walk : Walk) :
    (world.stored deviceName store tree).getFile nebu walk name = world.getFile nebu walk name := by
  have manager := stored_manager opened tree
  refine getFile_congr registered (by rw [manager, registered]) fun hex member hash parsed index => ?_
  rw [findShard, findShard, manager]
  congr 1
  funext holder
  cases found : world.manager.stores[holder]? with
  | none => rfl
  | some other =>
      have same : other.get tree hash = other.get world.tree hash := by
        rw [ChunkStore.get, ChunkStore.get]
        cases indexed : other.index[hemera.toHex hash]? with
        | some bytes => rfl
        | none =>
            simp only [FileTree.read]
            rw [node, Function.update_of_ne]
            intro here
            obtain ⟨named, root⟩ := List.cons.inj here
            have held := clear hex member hash parsed named other holder found root
            rw [← named, Std.ExtTreeMap.mem_iff_isSome_getElem?, indexed] at held
            cases held
      rw [Option.bind_some, Option.bind_some]
      exact congrArg (fun read => read.toOption.map (bytesToShard index)) same

theorem findShard_of_torn (opened : world.manager.stores[deviceName]? = some store)
    (node : tree.node = Function.update world.tree.node (store.place shard) (some (.file torn)))
    {holder : String} {other : ChunkStore hemera}
    (found : world.manager.stores[holder]? = some other) (root : other.root = store.root)
    (unindexed : chunkName hemera shard ∉ other.index) (index : Nat) :
    (world.stored deviceName store tree).findShard (.startingAt holder) index (digest hemera shard) =
      some (bytesToShard index torn) := by
  have manager := stored_manager opened tree
  refine findShard_startingAt (by rw [manager, found]) unindexed ?_ index
  change tree.node (chunkName hemera shard :: other.root) = some (.file torn)
  rw [node, root]
  exact Function.update_self ..

end Torn

end World

namespace Loop

open World

/-- The chunks that matter to a file: what the stores have, what its entry names, and
what the loop encodes. -/
def chunks (loop : Loop) (world : World hemera) (name : String) : Set (List UInt8) :=
  {bytes | ∃ hash, world.Stores (hemera.toHex hash) bytes} ∪
  {bytes | ∃ entry data shards, world.manager.registry.get name = some entry ∧
    Codes loop.nebu hemera entry data shards ∧ ∃ shard ∈ shards, bytes = shardToBytes shard} ∪
  {bytes | ∃ fileName between data shards, loop.Encodes world fileName between data shards ∧
    ∃ shard ∈ shards, bytes = shardToBytes shard}

/-- The entry names the shards of an encoding, or chunks that are there or that the loop
does not store. -/
def Settles (loop : Loop) (world : World hemera) (entry : FileEntry) : Prop :=
  (∃ data shards, Codes loop.nebu hemera entry data shards) ∨
    ∀ hex ∈ entry.shardHashes, ∀ hash, hexToHash hex = .ok hash →
      (∃ bytes, world.Stores (hemera.toHex hash) bytes) ∨
        ∀ shard now, loop.Deals world shard now → hemera.toHex hash = chunkName hemera shard →
          ¬ now.Accepts (deviceOf loop.deviceNames shard) shard

/-- No put of the loop leaves a torn chunk that the file's entry then names. -/
def Unspoiled (loop : Loop) (world : World hemera) (name : String) : Prop :=
  ∀ shard now, loop.Deals world shard now → now.Spoils (deviceOf loop.deviceNames shard) shard →
    ∀ entry, now.manager.registry.get name = some entry →
      ∀ hex ∈ entry.shardHashes, ∀ hash, hexToHash hex = .ok hash →
        hemera.toHex hash ≠ chunkName hemera shard

/-- What holds of each world that the loop comes to, for a file that could be read as
the data. -/
structure Holds (loop : Loop) (world : World hemera) (name : String) (data : List UInt8)
    (after : World hemera) : Prop where
  grows : world.Grows after
  sound : after.Sound (loop.chunks world name)
  settled : ∀ entry, world.manager.registry.get name = some entry →
    (∃ data shards, Codes loop.nebu hemera entry data shards) ∨ world.NoneNew after entry
  entries : after.manager.registry.get name = world.manager.registry.get name ∨
    ∃ entry shards, Recoded after loop.nebu (loop.chunks world name) name entry data shards

/-- The file could be read as the data, and nothing about it stands in the way. -/
structure Readable (loop : Loop) (world : World hemera) (name : String) (data : List UInt8) :
    Prop where
  honest : world.Honest
  free : hemera.CollisionFree (loop.chunks world name)
  settles : ∀ entry, world.manager.registry.get name = some entry → loop.Settles world entry
  read : ∃ stores, world.getFile loop.nebu stores name = .ok data

section Holds

variable {loop : Loop} {world between now after : World hemera} {name fileName : String}
  {data : List UInt8} {shards : List Shard} {shard : Shard}

theorem Readable.sound (readable : loop.Readable world name data) :
    world.Sound (loop.chunks world name) :=
  ⟨readable.honest, fun held => .inl (.inl ⟨_, held⟩)⟩

theorem Readable.holds (readable : loop.Readable world name data) :
    loop.Holds world name data world where
  grows := .refl world
  sound := readable.sound
  settled _ _ := .inr fun _ _ _ _ => id
  entries := .inl rfl

theorem Holds.getFile (lawful : loop.nebu.Lawful) (printed : hemera.toHex = hexText)
    (readable : loop.Readable world name data) (holds : loop.Holds world name data after)
    (walk : Walk) : after.getFile loop.nebu walk name = .ok data := by
  obtain ⟨stores, read⟩ := readable.read
  rcases holds.entries with same | ⟨entry, shards, recoded⟩
  · cases registered : world.manager.registry.get name with
    | none => simp [World.getFile, registered] at read
    | some entry =>
        rw [registered] at same
        refine readable.sound.getFile_kept lawful printed readable.free holds.sound holds.grows walk
          registered same ?_ (holds.settled entry registered) read
        intro data shards codes shard member
        exact .inl (.inr ⟨entry, data, shards, registered, codes, shard, member, rfl⟩)
  · exact recoded.getFile lawful printed readable.free holds.sound walk

theorem Deals.mem_chunks (deals : loop.Deals world shard now) (name : String) :
    shardToBytes shard ∈ loop.chunks world name := by
  obtain ⟨fileName, between, data, shards, encodes, comes⟩ := deals
  exact .inr ⟨fileName, between, data, shards, encodes, shard, comes.mem, rfl⟩

theorem Holds.put {hash : Option Particle} (readable : loop.Readable world name data)
    (holds : loop.Holds world name data now) (deals : loop.Deals world shard now)
    (put : putShard (deviceOf loop.deviceNames shard) shard now = (.ok hash, after)) :
    loop.Holds world name data after := by
  have grows := putShard_grows now (deviceOf loop.deviceNames shard) shard
  rw [put] at grows
  refine ⟨holds.grows.trans grows, ⟨?_, ?_⟩, ?_, ?_⟩
  · intro hash bytes held
    rcases putShard_stores put held with before | ⟨named, rfl⟩
    · exact holds.sound.honest hash bytes before
    · exact named.symm
  · intro hash bytes held
    rcases putShard_stores put held with before | ⟨-, rfl⟩
    · exact holds.sound.within before
    · exact deals.mem_chunks name
  · intro entry registered
    rcases holds.settled entry registered with coded | old
    · exact .inl coded
    · rcases readable.settles entry registered with coded | named
      · exact .inl coded
      · refine .inr fun hex member hash parsed ⟨bytes, held⟩ => ?_
        rcases putShard_stores put held with before | ⟨same, -⟩
        · exact old hex member hash parsed ⟨bytes, before⟩
        · refine (named hex member hash parsed).resolve_right fun unstored => ?_
          exact unstored shard now deals same (putShard_ok_iff.mp ⟨_, _, put⟩)
  · have registry := putShard_registry put
    rcases holds.entries with same | ⟨entry, shards, recoded⟩
    · exact .inl (registry ▸ same)
    · refine .inr ⟨entry, shards, registry ▸ recoded.registered, recoded.codes, recoded.known, ?_⟩
      intro other member
      obtain ⟨bytes, held⟩ := recoded.there other member
      exact grows.holds held

theorem Holds.register (lawful : loop.nebu.Lawful) (printed : hemera.toHex = hexText)
    (nonempty : loop.deviceNames ≠ [])
    (equipped : ∀ deviceName ∈ loop.deviceNames, deviceName ∈ world.manager.stores)
    (bound : loop.n ≤ 2 ^ 32) (readable : loop.Readable world name data) {stated : List UInt8}
    {hashes : List String} (encodes : loop.Encodes world fileName between stated shards)
    (dealt : distribute loop.deviceNames shards between = (.ok hashes, after))
    (before : loop.Holds world name data between) (holds : loop.Holds world name data after) :
    loop.Holds world name data (after.register (loop.entry hemera fileName stated shards hashes
      between.manager.registry)) where
  grows := holds.grows.register _
  sound := ⟨holds.sound.honest, holds.sound.within⟩
  settled := holds.settled
  entries := by
    have done := distribute_ok nonempty
      (fun deviceName member => before.grows.mem_stores (equipped deviceName member)) dealt
    have held := after.manager.registry.getRaw_insert_cases (loop.entry hemera fileName stated shards
      hashes between.manager.registry) name
    rcases held with same | ⟨rfl, held⟩
    · have live := congrArg (Option.filter (!·.deleted)) same
      rcases holds.entries with kept | ⟨entry, shards, recoded⟩
      · exact .inl (live.trans kept)
      · exact .inr ⟨entry, shards, live.trans recoded.registered, recoded.codes, recoded.known,
          recoded.there⟩
    · have live := congrArg (Option.filter (!·.deleted)) held
      have read := before.getFile lawful printed readable loop.stores
      cases encodes.read.symm.trans read
      refine .inr ⟨_, shards, live, ⟨encodes.coded, bound, rfl, done.hashes_eq⟩, ?_, ?_⟩
      · exact fun shard member => .inr ⟨_, between, _, shards, encodes, shard, member, rfl⟩
      · intro shard member
        obtain ⟨store, opened, held⟩ := done.indexed shard member
        rw [Std.ExtTreeMap.mem_iff_isSome_getElem?, Option.isSome_iff_exists] at held
        obtain ⟨bytes, indexed⟩ := held
        exact ⟨bytes, _, store, opened, .inl indexed⟩

/-- The run keeps a file that no put spoils. -/
theorem run_keeps_file (lawful : loop.nebu.Lawful) (printed : hemera.toHex = hexText)
    (nonempty : loop.deviceNames ≠ [])
    (equipped : ∀ deviceName ∈ loop.deviceNames, deviceName ∈ world.manager.stores)
    (bound : loop.n ≤ 2 ^ 32) (readable : loop.Readable world name data)
    (unspoiled : loop.Unspoiled world name) (walk : Walk) :
    (loop.run world).2.getFile loop.nebu walk name = .ok data := by
  have read : ∀ {after}, loop.Holds world name data after →
      after.getFile loop.nebu walk name = .ok data :=
    fun holds => holds.getFile lawful printed readable walk
  obtain ⟨turns, puts⟩ := reached readable.holds (fun deals holds => holds.put readable deals)
    (fun encodes dealt => Holds.register lawful printed nonempty equipped bound readable encodes dealt)
  refine run_last (read readable.holds) (fun turn => read (turns _ _ turn)) ?_ ?_
  · intro shard now deals
    have holds := puts shard now deals
    rcases putShard_outcomes now (deviceOf loop.deviceNames shard) shard with
      ⟨-, hash, after, put⟩ | ⟨torn, store, written, reason, tree, opened, -, put, node⟩ |
        ⟨-, -, reason, put⟩
    · rw [put]
      exact read (holds.put readable deals put)
    · rw [put]
      cases registered : now.manager.registry.get name with
      | none => simpa [World.getFile, registered] using read holds
      | some entry =>
          rw [getFile_of_torn opened node registered, read holds]
          intro hex member hash parsed named other holder found root
          by_contra unindexed
          exact unspoiled shard now deals ⟨torn, store, other, holder, opened, found, root, unindexed⟩
            entry registered hex member hash parsed named
    · rw [put]
      exact read holds
  · intro fileName between stated shards hashes dealt encodes run
    have before := turns fileName between encodes.turn
    refine read (Holds.register lawful printed nonempty equipped bound readable encodes run before ?_)
    exact distribute_keeps run before fun here holds =>
      holds.put readable ⟨_, _, _, _, encodes, here⟩

/-- While no device of the disk is full nothing is torn. -/
theorem unspoiled_of_roomy (nonempty : loop.deviceNames ≠ [])
    (roomy : ∀ deviceName ∈ loop.deviceNames, ∀ (store : ChunkStore hemera) (hash : Particle)
      (written : Nat), world.manager.stores[deviceName]? = some store →
      world.tree.obstacle (hemera.toHex hash :: store.root) ≠ some (.full written))
    (name : String) : loop.Unspoiled world name := by
  intro shard now deals spoils
  obtain ⟨store, opened, -, -, -, written, full, -⟩ := spoils.1
  have grows := deals.grows
  cases before : world.manager.stores[deviceOf loop.deviceNames shard]? with
  | none => cases (grows.closed before).symm.trans opened
  | some old =>
      obtain ⟨kept, found, root, -⟩ := grows.opened before
      cases found.symm.trans opened
      rw [grows.obstacle, ChunkStore.place, root] at full
      exact absurd full (roomy _ (deviceOf_mem nonempty shard) old (digest hemera shard) written before)

/-- A put that spoils a chunk ends the run, and some walk then reads what is left of it. -/
theorem Deals.spoiled (deals : loop.Deals world shard now)
    (spoils : now.Spoils (deviceOf loop.deviceNames shard) shard) :
    ∃ written walk, written < (shardToBytes shard).length ∧ ∀ index,
      (loop.run world).2.findShard walk index (digest hemera shard) =
        some (bytesToShard index ((shardToBytes shard).take written)) := by
  obtain ⟨torn, store, other, holder, opened, found, root, unindexed⟩ := spoils
  rcases putShard_outcomes now (deviceOf loop.deviceNames shard) shard with
    ⟨accepts, -⟩ | ⟨-, kept, written, reason, tree, openedKept, short, put, node⟩ | ⟨-, quiet, -⟩
  · exact absurd accepts torn.not_accepts
  · cases opened.symm.trans openedKept
    refine ⟨written, .startingAt holder, short, fun index => ?_⟩
    rw [deals.fails put]
    exact findShard_of_torn opened node found root unindexed index
  · exact absurd torn.writes quiet

end Holds

end Loop

namespace World

/-- A file that could be read is read as before after `rechunk`, whatever it has
returned, when its entry names the shards of an encoding or no chunk that `rechunk` adds,
and no put leaves a torn chunk that it names: there is none while no device of the disk is
full.  What is left of a torn chunk is read on some walk. -/
theorem rechunk_keeps_files (nebu : Nebu) (lawful : nebu.Lawful) (merkle : HemeraTree)
    (printed : hemera.toHex = hexText) (world : World hemera) (diskName : String)
    (config : DiskConfig) (disk : world.manager.disks[diskName]? = some config)
    (equipped : world.Equipped)
    (tolerated : config.redundancy.failures (world.manager.deviceNames diskName).length <
      (world.manager.deviceNames diskName).length)
    (bound : (world.manager.deviceNames diskName).length ≤ 2 ^ 32) (honest : world.Honest)
    (stores files : Walk) (clock : String → UInt64) :
    let loop := world.loop nebu merkle stores files clock diskName config
    let rechunked := rechunk nebu merkle stores files clock diskName world
    (∀ name data before later, world.getFile nebu before name = .ok data →
      hemera.CollisionFree (loop.chunks world name) →
      (∀ entry, world.manager.registry.get name = some entry → loop.Settles world entry) →
      loop.Unspoiled world name → rechunked.2.getFile nebu later name = .ok data) ∧
    ((∀ deviceName ∈ world.manager.deviceNames diskName, ∀ (store : ChunkStore hemera)
        (hash : Particle) (written : Nat), world.manager.stores[deviceName]? = some store →
        world.tree.obstacle (hemera.toHex hash :: store.root) ≠ some (.full written)) →
      ∀ name, loop.Unspoiled world name) ∧
    ∀ shard now, loop.Deals world shard now →
      now.Spoils (deviceOf (world.manager.deviceNames diskName) shard) shard →
      ∃ written walk, written < (shardToBytes shard).length ∧ ∀ index,
        rechunked.2.findShard walk index (digest hemera shard) =
          some (bytesToShard index ((shardToBytes shard).take written)) := by
  intro loop rechunked
  have attached : world.manager.deviceNames diskName ≠ [] :=
    List.length_pos_iff.mp (Nat.zero_lt_of_lt tolerated)
  have run : rechunked.2 = (loop.run world).2 := rechunk_snd nebu merkle stores files clock disk
  refine ⟨?_, fun roomy name => Loop.unspoiled_of_roomy attached roomy name, ?_⟩
  · intro name data before later read free settles unspoiled
    have opened : ∀ deviceName ∈ loop.deviceNames, deviceName ∈ world.manager.stores := by
      intro deviceName member
      obtain ⟨attachment, kept, rfl⟩ := List.mem_map.mp member
      exact equipped attachment (List.mem_filter.mp kept).1
    rw [run]
    change (loop.run world).2.getFile loop.nebu later name = .ok data
    exact Loop.run_keeps_file lawful printed attached opened (nextPowerOfTwo_le bound)
      ⟨honest, free, settles, before, read⟩ unspoiled later
  · intro shard now deals spoils
    rw [run]
    exact Loop.Deals.spoiled deals spoils

section OneByte

/-- Every file is one byte, encoded. -/
def OneByte (world : World Hemera.truncating) : Prop :=
  ∀ name entry, world.manager.registry.get name = some entry →
    ∃ byte shards, Codes naiveNebu .truncating entry [byte] shards

theorem length_of_oneByte {data : List UInt8} (single : data.length = 1) {k n : Nat}
    {shards : List Shard} (coded : encode nebu data k n = some shards) {shard : Shard}
    (member : shard ∈ shards) : (shardToBytes shard).length = 8 := by
  have positive := (encode_params coded).2.1
  have elements : (bytesToElements data).length = 1 := by
    simp [bytesToElements, Erasure.chunks, single]
  have size := encode_data_length coded member
  rw [elements, Nat.add_sub_cancel_left, Nat.div_self positive] at size
  rw [shardToBytes, List.length_flatMap]
  simp [size]

variable {world : World Hemera.truncating}

theorem OneByte.loop_collisionFree (files : world.OneByte)
    (sound : world.Sound {bytes | bytes.length = 8}) {loop : Loop}
    (encoded : ∀ {fileName between data shards}, loop.Encodes world fileName between data shards →
      data.length = 1) {name : String} :
    Hemera.truncating.CollisionFree (loop.chunks world name) := by
  refine Set.InjOn.mono ?_ (Hemera.truncating_collisionFree (by decide : 8 ≤ 32))
  rintro bytes ((⟨hash, held⟩ | ⟨entry, data, shards, registered, codes, shard, member, rfl⟩) |
    ⟨fileName, between, data, shards, encodes, shard, member, rfl⟩)
  · exact sound.within held
  · obtain ⟨byte, _, known⟩ := files name entry registered
    have single : data.length = 1 := by
      rw [← codes.length, known.length, List.length_singleton]
    exact length_of_oneByte single codes.coded member
  · exact length_of_oneByte (encoded encodes) encodes.coded member

end OneByte

/-- One file on one device, before another device is attached to its disk. -/
def oneNote : World Hemera.truncating :=
  fullCard.run naiveNebu .truncating
    [.createDisk { name := "work", redundancy := .tolerate 0, shardCopies := 1 },
      .attach "ssd" "work" 0, .putFile 5 "work" "notes" [7]]

theorem roomy_of_roots {world : World Hemera.truncating}
    (obstacle : world.tree.obstacle = fullCard.tree.obstacle)
    (roots : ∀ kept ∈ world.manager.stores.toList, kept.2.root ≠ ["card"]) : world.Roomy := by
  intro name store hash written opened full
  have elsewhere := roots (name, store) (Std.ExtTreeMap.mem_toList_iff_getElem?_eq_some.mpr opened)
  rw [obstacle] at full
  change (if store.root = ["card"] then some (Obstacle.full 0) else none) = _ at full
  rw [if_neg elsewhere] at full
  cases full

theorem oneNote_addressed : oneNote.Addressed {bytes | bytes.length = 8} := by
  let disk := (call naiveNebu .truncating
    (.createDisk { name := "work", redundancy := .tolerate 0, shardCopies := 1 }) fullCard).2
  let world := (attach "ssd" "work" 0 disk).2
  have empty : disk.Addressed {bytes | bytes.length = 8} := by
    refine ⟨?_, ?_⟩
    · intro hash place bytes file
      cases file
    · intro name store hex bytes opened
      cases opened
  have roomy : world.Roomy :=
    roomy_of_roots (attach_adds "ssd" "work" 0 disk).1.obstacle (by decide +kernel)
  refine putFile_addressed 5 "work" "notes" [7] roomy ?_ (attach_addressed "ssd" "work" 0 disk empty)
  rw [naiveNebu_eq]
  decide +kernel

theorem oneNote_obstacle : oneNote.tree.obstacle = fullCard.tree.obstacle :=
  (putFile_grows naiveNebu .truncating 5 "work" "notes" [7] _).obstacle.trans
    (attach_adds "ssd" "work" 0 _).1.obstacle

theorem oneNote_oneByte (deviceName diskName : String) (capacity : UInt64) :
    (attach deviceName diskName capacity oneNote).2.OneByte := by
  have files : ∀ kept ∈ oneNote.manager.registry.files.toList, kept.2.originalLen = 1 ∧
      kept.2.k = 1 ∧ kept.2.n = 1 ∧ kept.2.shardHashes = [chunkName .truncating ⟨0, [7]⟩] := by
    rw [oneNote, naiveNebu_eq]
    decide +kernel
  have coded : encode naiveNebu [7] 1 1 = some [⟨0, [7]⟩] := by
    rw [naiveNebu_eq]
    decide +kernel
  intro name entry registered
  rw [attach_registry] at registered
  obtain ⟨kept, -⟩ := Option.filter_eq_some_iff.mp registered
  obtain ⟨length, threshold, size, hashes⟩ :=
    files (name, entry) (Std.ExtTreeMap.mem_toList_iff_getElem?_eq_some.mpr kept)
  refine ⟨7, [⟨0, [7]⟩], ?_, ?_, length, hashes⟩
  · rw [threshold, size, coded]
  · rw [size]
    decide

theorem oneNote_phone_ready :
    (attach "phone" "work" 0 oneNote).2.Equipped ∧ (attach "phone" "work" 0 oneNote).2.Roomy := by
  have facts : (attach "phone" "work" 0 oneNote).2.Equipped ∧
      ∀ kept ∈ (attach "phone" "work" 0 oneNote).2.manager.stores.toList,
        kept.2.root ≠ ["card"] := by
    rw [oneNote, naiveNebu_eq]
    decide +kernel
  have obstacle : (attach "phone" "work" 0 oneNote).2.tree.obstacle = fullCard.tree.obstacle :=
    (attach_adds "phone" "work" 0 oneNote).1.obstacle.trans oneNote_obstacle
  exact ⟨facts.1, roomy_of_roots obstacle facts.2⟩

theorem oneNote_coded : encode naiveNebu [7] 2 2 = some [⟨0, [7]⟩, ⟨1, [7]⟩] := by
  rw [naiveNebu_eq]
  decide +kernel

/-- With a second device on its disk the note is to be rewritten. -/
theorem oneNote_outdated (world : World Hemera.truncating)
    (attached : world = (attach "phone" "work" 0 oneNote).2) :
    world.manager.disks["work"]? =
        some { name := "work", redundancy := .tolerate 0, shardCopies := 1 } ∧
      world.manager.deviceNames "work" = ["ssd", "phone"] ∧
      world.outdated .sorted 2 2 = ["notes"] ∧
      world.getFile naiveNebu .sorted "notes" = .ok [7] := by
  rw [attached, oneNote, naiveNebu_eq]
  decide +kernel

/-- The loop of `rechunk` comes to the note only. -/
theorem oneNote_turn_iff {world : World Hemera.truncating} {deviceName : String}
    (names : world.manager.deviceNames "work" = ["ssd", deviceName])
    (outdated : world.outdated .sorted 2 2 = ["notes"]) (clock : String → UInt64)
    {fileName : String} {between : World Hemera.truncating} :
    (world.loop naiveNebu .truncating .sorted .sorted clock "work"
      { name := "work", redundancy := .tolerate 0, shardCopies := 1 }).Turn world fileName between ↔
        fileName = "notes" ∧ between = world := by
  have listed : (world.loop naiveNebu .truncating .sorted .sorted clock "work"
      { name := "work", redundancy := .tolerate 0, shardCopies := 1 }).fileNames = ["notes"] := by
    rw [loop, names]
    exact outdated
  rw [Loop.Turn, listed, Action.reaches_singleton_iff]

theorem OneByte.oneNote_free {world : World Hemera.truncating} {deviceName : String}
    (files : world.OneByte) (sound : world.Sound {bytes | bytes.length = 8})
    (names : world.manager.deviceNames "work" = ["ssd", deviceName])
    (outdated : world.outdated .sorted 2 2 = ["notes"])
    (read : world.getFile naiveNebu .sorted "notes" = .ok [7]) (clock : String → UInt64) :
    Hemera.truncating.CollisionFree ((world.loop naiveNebu .truncating .sorted .sorted clock "work"
      { name := "work", redundancy := .tolerate 0, shardCopies := 1 }).chunks world "notes") := by
  refine files.loop_collisionFree sound fun {fileName between data shards} encodes => ?_
  obtain ⟨rfl, rfl⟩ := (oneNote_turn_iff names outdated clock).mp encodes.turn
  cases encodes.read.symm.trans read
  rfl

/-- A new device that has room. -/
theorem rechunk_keeps_files_one_note :
    let world := (attach "phone" "work" 0 oneNote).2
    world.manager.deviceNames "work" = ["ssd", "phone"] ∧
      world.outdated .sorted 2 2 = ["notes"] ∧
      world.getFile naiveNebu .sorted "notes" = .ok [7] ∧
      (rechunk naiveNebu .truncating .sorted .sorted (fun _ => 6) "work" world).2.getFile naiveNebu
        .sorted "notes" = .ok [7] := by
  intro world
  obtain ⟨disk, names, outdated, read⟩ := oneNote_outdated world rfl
  have two : (world.manager.deviceNames "work").length = 2 := by rw [names]; rfl
  have sound := (attach_addressed "phone" "work" 0 oneNote oneNote_addressed).sound
  have files := oneNote_oneByte "phone" "work" 0
  obtain ⟨equipped, roomy⟩ := oneNote_phone_ready
  refine ⟨names, outdated, read, ?_⟩
  obtain ⟨keeps, unspoiled, -⟩ := rechunk_keeps_files naiveNebu naiveNebu_lawful .truncating rfl world
    "work" { name := "work", redundancy := .tolerate 0, shardCopies := 1 } disk equipped
    (two ▸ by decide) (two ▸ by decide) sound.honest .sorted .sorted fun _ => 6
  refine keeps "notes" [7] .sorted .sorted read (files.oneNote_free sound names outdated read _) ?_
    (unspoiled (fun _ _ store hash written opened => roomy _ store hash written opened) "notes")
  intro entry registered
  obtain ⟨byte, shards, codes⟩ := files "notes" entry registered
  exact .inl ⟨[byte], shards, codes⟩

/-- The new device is full, and the shard that `rechunk` writes there is cut
off.  It has the name of the shard that the other device has, and `get_file`
reads it first. -/
theorem rechunk_on_full_device :
    let world := (attach "card" "work" 0 oneNote).2
    let rechunked := rechunk naiveNebu .truncating .sorted .sorted (fun _ => 6) "work" world
    world.Equipped ∧ world.Honest ∧
      Hemera.truncating.CollisionFree ((world.loop naiveNebu .truncating .sorted .sorted
        (fun _ => 6) "work" { name := "work", redundancy := .tolerate 0, shardCopies := 1 }).chunks
          world "notes") ∧
      world.manager.disks["work"]? =
        some { name := "work", redundancy := .tolerate 0, shardCopies := 1 } ∧
      world.manager.deviceNames "work" = ["ssd", "card"] ∧
      world.getFile naiveNebu .sorted "notes" = .ok [7] ∧
      rechunked.1 = .err "No space left on device (os error 28)" ∧
      rechunked.2.getFile naiveNebu .sorted "notes" = .ok [] := by
  intro world rechunked
  have sound := (attach_addressed "card" "work" 0 oneNote oneNote_addressed).sound
  have files := oneNote_oneByte "card" "work" 0
  have facts : world.Equipped ∧ world.manager.disks["work"]? =
        some { name := "work", redundancy := .tolerate 0, shardCopies := 1 } ∧
      world.manager.deviceNames "work" = ["ssd", "card"] ∧
      world.outdated .sorted 2 2 = ["notes"] ∧
      world.getFile naiveNebu .sorted "notes" = .ok [7] := by
    simp only [world, oneNote]
    rw [naiveNebu_eq]
    decide +kernel
  obtain ⟨equipped, disk, names, outdated, read⟩ := facts
  have two : (world.manager.deviceNames "work").length = 2 := by rw [names]; rfl
  have run : rechunked = _ := rechunk_single disk (two ▸ by decide) (two ▸ rfl) (two ▸ outdated) read
    (two ▸ oneNote_coded)
  rw [names] at run
  refine ⟨equipped, sound.honest, files.oneNote_free sound names outdated read _, disk, names, read,
    ?_⟩
  rw [run]
  simp only [world, oneNote]
  rw [naiveNebu_eq]
  decide +kernel

end World

end Foculus.VDisk

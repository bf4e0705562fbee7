import Foculus.Store.Convergence
import Foculus.VDisk.Survival

namespace Foculus.VDisk

open Data Erasure Store

/-! # What `rechunk` of one disk leaves alone

All disks share one registry, and an entry does not say which disk its file is
on: `rechunk` rewrites every file whose parameters are not those of its disk. -/

variable {hemera : Hemera}

namespace World

/-- The chunk lies in the directory of the device. -/
def Placed (world : World hemera) (deviceName hex : String) : Prop :=
  ∃ store : ChunkStore hemera, world.manager.stores[deviceName]? = some store ∧
    world.tree.has (hex :: store.root) = true

/-- The entry of the file is as before, and so are the devices that have the
chunks it names. -/
structure Framed (world after : World hemera) (name : String) : Prop where
  entry : after.manager.registry.getRaw name = world.manager.registry.getRaw name
  placed : ∀ entry, world.manager.registry.getRaw name = some entry →
    ∀ hex ∈ entry.shardHashes, ∀ deviceName,
      after.Placed deviceName hex ↔ world.Placed deviceName hex

/-- The entry of the file outlasts one with these shards: it has the last timestamp
there is, and no smaller hash. -/
def Endures (world : World hemera) (deviceNames : List String) (name : String)
    (shards : List Shard) : Prop :=
  ∃ held, world.manager.registry.getRaw name = some held ∧ held.timestamp.toNat + 1 = 2 ^ 64 ∧
    ¬ held.entryHash < FileEntry.computeHash hemera name (world.storedHashes deviceNames shards)
      held.timestamp "vdisk"

end World

namespace Loop

open World

/-- The loop leaves the file alone: it does not rewrite it, unless one of the new shards
is refused or the entry endures, and no put writes one of its chunks. -/
structure Spares (loop : Loop) (world : World hemera) (name : String) : Prop where
  entry : ∀ between data shards, loop.Encodes world name between data shards →
    (∃ shard now, between.Comes loop.deviceNames shards shard now ∧
      ¬ now.Accepts (deviceOf loop.deviceNames shard) shard) ∨
    between.Endures loop.deviceNames name shards
  chunks : ∀ entry, world.manager.registry.getRaw name = some entry →
    ∀ shard now, loop.Deals world shard now → chunkName hemera shard ∈ entry.shardHashes →
      ¬ now.Writes (deviceOf loop.deviceNames shard) shard

variable {loop : Loop} {world between now after : World hemera} {name : String}
  {data : List UInt8} {shards : List Shard} {shard : Shard}

section Entry

/-- The entry that a round writes replaces the one that is held unless that one endures. -/
theorem stamp_lt_entry_iff {held : FileEntry} {hashes : List String} (data : List UInt8)
    (found : between.manager.registry.getRaw name = some held)
    (dealt : distribute loop.deviceNames shards between = (.ok hashes, after)) :
    held.stamp < (loop.entry hemera name data shards hashes between.manager.registry).stamp ↔
      ¬ between.Endures loop.deviceNames name shards := by
  have hashed := (distribute_hashes dealt).1
  have stamped : (loop.entry hemera name data shards hashes between.manager.registry).timestamp =
      max (loop.clock name) (satAdd held.timestamp 1) := by
    rw [entry, rewritten, found]
    rfl
  have bound := held.timestamp.toNat_lt
  rw [stamp_lt_iff]
  by_cases last : held.timestamp.toNat + 1 = 2 ^ 64
  · rw [max_satAdd_last _ last] at stamped
    have named : (loop.entry hemera name data shards hashes between.manager.registry).entryHash =
        FileEntry.computeHash hemera name (between.storedHashes loop.deviceNames shards)
          held.timestamp "vdisk" := by
      rw [← hashed, ← stamped]
      rfl
    rw [stamped, named]
    constructor
    · rintro (newer | ⟨-, later⟩) ⟨other, foundOther, -, smaller⟩
      · exact UInt64.lt_irrefl _ newer
      · cases found.symm.trans foundOther
        exact smaller later
    · intro replaced
      refine .inr ⟨rfl, ?_⟩
      by_contra smaller
      exact replaced ⟨held, found, last, smaller⟩
  · refine iff_of_true (.inl ?_) ?_
    · rw [stamped]
      exact lt_max_satAdd _ (by omega)
    · rintro ⟨other, foundOther, lastOther, -⟩
      cases found.symm.trans foundOther
      exact last lastOther

theorem Encodes.getRaw (encodes : loop.Encodes world name between data shards) :
    ∃ held, between.manager.registry.getRaw name = some held := by
  cases registered : between.manager.registry.get name with
  | none =>
      have read := encodes.read
      simp [World.getFile, registered] at read
  | some held => exact ⟨held, (Option.filter_eq_some_iff.mp registered).1⟩

/-- The entry that is held under a name only ever becomes later. -/
theorem rank_le_register (world : World hemera) (entry : FileEntry) (name : String) :
    world.manager.registry.rank name ≤ (world.register entry).manager.registry.rank name := by
  change _ ≤ (world.manager.registry.lwwInsert entry).rank name
  rw [GSet.lwwInsert_rank]
  split_ifs
  · exact le_sup_left
  · exact le_rfl

theorem rank_le_of_turn (turn : loop.Turn world name between) (other : String) :
    world.manager.registry.rank other ≤ between.manager.registry.rank other := by
  refine (@reached hemera loop world (fun after => world.manager.registry.rank other ≤
    after.manager.registry.rank other) le_rfl ?_ ?_).1 name between turn
  · intro shard now hash after _ before put
    rwa [putShard_registry put]
  · exact fun _ _ _ dealt => dealt.trans (rank_le_register ..)

theorem putShard_registry_eq (world : World hemera) (deviceName : String) (shard : Shard) :
    (putShard deviceName shard world).2.manager.registry = world.manager.registry := by
  have puts := putShard_puts world deviceName (List.mem_singleton_self shard) world
    (.refl [shard] world)
  rcases called : putShard deviceName shard world with ⟨outcome, after⟩
  rw [called] at puts
  cases outcome with
  | ok hash => exact puts.registry
  | err reason => exact puts.registry
  | panic => exact puts.elim

/-- Where the entry that is held endures, the round leaves it. -/
theorem Encodes.getRaw_register {hashes : List String}
    (encodes : loop.Encodes world name between data shards)
    (run : distribute loop.deviceNames shards between = (.ok hashes, after))
    (lasting : between.Endures loop.deviceNames name shards) :
    (after.register (loop.entry hemera name data shards hashes
      between.manager.registry)).manager.registry.getRaw name =
        after.manager.registry.getRaw name := by
  obtain ⟨held, found⟩ := encodes.getRaw
  have older := mt (stamp_lt_entry_iff data found run).mp (not_not.mpr lasting)
  have there : after.manager.registry.getRaw name = some held := by
    rw [(distribute_hashes run).2, found]
  have inserted := after.manager.registry.getRaw_insert
    (loop.entry hemera name data shards hashes between.manager.registry)
  have named : (loop.entry hemera name data shards hashes between.manager.registry).name = name :=
    rfl
  rw [named, there] at inserted
  simp only [if_neg older] at inserted
  exact inserted.trans there.symm

/-- A file that the loop rewrites has a later entry in the end. -/
theorem Encodes.rank_lt {hashes : List String}
    (encodes : loop.Encodes world name between data shards)
    (dealt : distribute loop.deviceNames shards between = (.ok hashes, after))
    (replaced : ¬ between.Endures loop.deviceNames name shards) :
    world.manager.registry.rank name < (loop.run world).2.manager.registry.rank name := by
  obtain ⟨held, found⟩ := encodes.getRaw
  have newer := (stamp_lt_entry_iff data found dealt).mpr replaced
  have before := rank_le_of_turn encodes.turn name
  rw [GSet.rank_of_getElem? found] at before
  have written : ((loop.entry hemera name data shards hashes between.manager.registry).stamp :
      WithBot Stamp) ≤ (loop.run world).2.manager.registry.rank name := by
    have kept : ∀ deviceName other, (putShard deviceName other).Keeps fun last : World hemera =>
        ((loop.entry hemera name data shards hashes between.manager.registry).stamp :
          WithBot Stamp) ≤ last.manager.registry.rank name := by
      intro deviceName other last holds
      rwa [putShard_registry_eq]
    refine encodes.turn.keeps_to_end kept
      (fun entry last holds => holds.trans (rank_le_register last entry name)) ?_
    rw [encodes.round_ok dealt]
    change _ ≤ (after.manager.registry.lwwInsert _).rank name
    have named : (loop.entry hemera name data shards hashes between.manager.registry).name = name :=
      rfl
    rw [GSet.lwwInsert_rank, if_pos named]
    exact le_sup_right
  exact (before.trans_lt (WithBot.coe_lt_coe.mpr newer)).trans_le written

end Entry

section Chunks

theorem Placed.grows (grows : world.Grows after) {deviceName hex : String}
    (placed : world.Placed deviceName hex) : after.Placed deviceName hex := by
  obtain ⟨store, opened, present⟩ := placed
  obtain ⟨kept, found, root, -⟩ := grows.opened opened
  exact ⟨kept, found, root ▸ grows.has present⟩

/-- A chunk that a put writes lies where it did not lie before. -/
theorem Deals.placed (deals : loop.Deals world shard now)
    (writes : now.Writes (deviceOf loop.deviceNames shard) shard) :
    ¬ world.Placed (deviceOf loop.deviceNames shard) (chunkName hemera shard) ∧
      (loop.run world).2.Placed (deviceOf loop.deviceNames shard) (chunkName hemera shard) := by
  obtain ⟨store, opened, absent, created, -⟩ := writes.put
  constructor
  · intro before
    obtain ⟨kept, found, present⟩ := Placed.grows deals.grows before
    cases opened.symm.trans found
    exact Bool.false_ne_true (absent.symm.trans present)
  · refine deals.keeps_to_end (fun deviceName other middle placed =>
      Placed.grows (putShard_grows middle deviceName other) placed) (fun _ _ placed => placed) ?_
    obtain ⟨kept, found, root, -⟩ :=
      (putShard_grows now (deviceOf loop.deviceNames shard) shard).opened opened
    exact ⟨kept, found, root ▸ created⟩

/-- What a put creates is the file of its chunk. -/
theorem has_of_putShard {deviceName : String} {place : Location}
    (present : (putShard deviceName shard now).2.tree.has place = true) :
    now.tree.has place = true ∨ now.Writes deviceName shard ∧
      ∃ store : ChunkStore hemera, now.manager.stores[deviceName]? = some store ∧
        place = store.place shard := by
  by_cases writes : now.Writes deviceName shard
  · obtain ⟨store, opened, -⟩ := writes.put
    rw [putShard_opened opened] at present
    exact (ChunkStore.has_of_put present).imp_right fun here => ⟨writes, store, opened, here⟩
  · rw [putShard_tree_of_not_writes writes] at present
    exact .inl present

end Chunks

/-- The entry and the files of its chunks stay as they are. -/
theorem Spares.framed (spares : loop.Spares world name) :
    world.Framed (loop.run world).2 name := by
  have kept : (loop.run world).2.manager.registry.getRaw name = world.manager.registry.getRaw name ∧
      ∀ entry, world.manager.registry.getRaw name = some entry → ∀ hex ∈ entry.shardHashes,
        ∀ place, (loop.run world).2.tree.has (hex :: place) = true →
          world.tree.has (hex :: place) = true := by
    refine @run_keeps hemera loop world (fun after =>
      after.manager.registry.getRaw name = world.manager.registry.getRaw name ∧
        ∀ entry, world.manager.registry.getRaw name = some entry → ∀ hex ∈ entry.shardHashes,
          ∀ place, after.tree.has (hex :: place) = true → world.tree.has (hex :: place) = true)
      ⟨rfl, fun _ _ _ _ _ => id⟩ ?_ ?_
    · rintro shard now deals ⟨same, before⟩
      refine ⟨(congrArg (GSet.getRaw · name) (putShard_registry_eq ..)).trans same, ?_⟩
      intro entry held hex named place present
      rcases has_of_putShard present with there | ⟨writes, store, -, here⟩
      · exact before entry held hex named place there
      · obtain ⟨rfl, -⟩ := List.cons.inj here
        exact absurd writes (spares.chunks entry held shard now deals named)
    · rintro fileName between data shards hashes dealt encodes run - ⟨same, before⟩
      refine ⟨?_, before⟩
      by_cases here : fileName = name
      · subst here
        have lasting : between.Endures loop.deviceNames fileName shards := by
          refine (spares.entry between data shards encodes).resolve_left ?_
          rintro ⟨shard, now, comes, refused⟩
          exact refused (distribute_ok_iff.mp ⟨_, _, run⟩ shard now comes)
        exact (encodes.getRaw_register run lasting).trans same
      · rcases dealt.manager.registry.getRaw_insert_cases (loop.entry hemera fileName data shards
          hashes between.manager.registry) name with unchanged | ⟨named, -⟩
        · exact unchanged.trans same
        · exact absurd named.symm here
  refine ⟨kept.1, fun entry held hex named deviceName => ⟨?_, Placed.grows (run_grows loop world)⟩⟩
  rintro ⟨store, opened, present⟩
  cases before : world.manager.stores[deviceName]? with
  | none => cases ((run_grows loop world).closed before).symm.trans opened
  | some old =>
      obtain ⟨same, found, root, -⟩ := (run_grows loop world).opened before
      cases found.symm.trans opened
      exact ⟨old, before, kept.2 entry held hex named old.root (root ▸ present)⟩

/-- A file that is left alone is spared. -/
theorem spares_of_framed (framed : world.Framed (loop.run world).2 name) :
    loop.Spares world name where
  entry := by
    intro between data shards encodes
    by_contra rewritten
    obtain ⟨accepted, replaced⟩ := not_or.mp rewritten
    obtain ⟨hashes, after, dealt⟩ := distribute_ok_iff.mpr fun shard now comes =>
      not_not.mp fun refused => accepted ⟨shard, now, comes, refused⟩
    have later := encodes.rank_lt dealt replaced
    have same : (loop.run world).2.manager.registry.rank name = world.manager.registry.rank name :=
      congrArg (Option.map FileEntry.stamp) framed.entry
    exact later.ne same.symm
  chunks := by
    intro entry held shard now deals named writes
    obtain ⟨before, after⟩ := deals.placed writes
    exact before ((framed.placed entry held _ named _).mp after)

theorem spares_iff : loop.Spares world name ↔ world.Framed (loop.run world).2 name :=
  ⟨Spares.framed, spares_of_framed⟩

/-- A file that the loop is not over is spared when the devices have its chunks. -/
theorem spares_of_not_mem (unlisted : name ∉ loop.fileNames) (nonempty : loop.deviceNames ≠ [])
    (placed : ∀ entry, world.manager.registry.getRaw name = some entry →
      ∀ hex ∈ entry.shardHashes, ∀ deviceName ∈ loop.deviceNames,
        deviceName ∈ world.manager.stores → world.Placed deviceName hex) :
    loop.Spares world name where
  entry between data shards encodes := absurd (Action.Reaches.mem encodes.turn) unlisted
  chunks := by
    rintro entry held shard now deals named writes
    have attached : deviceOf loop.deviceNames shard ∈ world.manager.stores := by
      obtain ⟨store, opened, -⟩ := writes
      rw [Std.ExtTreeMap.mem_iff_isSome_getElem?]
      cases before : world.manager.stores[deviceOf loop.deviceNames shard]? with
      | none => cases (deals.grows.closed before).symm.trans opened
      | some old => rfl
    exact (deals.placed writes).1
      (placed entry held _ named _ (deviceOf_mem nonempty shard) attached)

theorem spares_of_nil (unlisted : loop.fileNames = []) : loop.Spares world name where
  entry between data shards encodes := by
    have member := Action.Reaches.mem encodes.turn
    rw [unlisted] at member
    cases member
  chunks := by
    rintro entry held shard now ⟨fileName, between, data, shards, encodes, comes⟩
    have member := Action.Reaches.mem encodes.turn
    rw [unlisted] at member
    cases member

/-- Stores of devices that are not on the disk stay as they are. -/
theorem run_stores {deviceName : String} (foreign : deviceName ∉ loop.deviceNames)
    (listed : loop.deviceNames = [] → loop.fileNames = []) :
    (loop.run world).2.manager.stores[deviceName]? = world.manager.stores[deviceName]? := by
  refine @run_keeps hemera loop world (fun after => after.manager.stores[deviceName]? =
    world.manager.stores[deviceName]?) rfl ?_ fun _ _ _ => id
  intro shard now deals same
  have nonempty : loop.deviceNames ≠ [] := by
    intro none_attached
    obtain ⟨fileName, between, data, shards, encodes, comes⟩ := deals
    have member := Action.Reaches.mem encodes.turn
    rw [listed none_attached] at member
    cases member
  cases opened : now.manager.stores[deviceOf loop.deviceNames shard]? with
  | none => rwa [putShard_missing opened]
  | some store =>
      rw [putShard_opened opened, stored_getElem?, if_neg ?_, same]
      rintro rfl
      exact foreign (deviceOf_mem nonempty shard)

end Loop

namespace World

theorem Framed.refl (world : World hemera) (name : String) : world.Framed world name :=
  ⟨rfl, fun _ _ _ _ _ => Iff.rfl⟩

section Rechunk

variable {nebu : Nebu} {merkle : HemeraTree} {world : World hemera} {diskName : String}
  {stores files : Walk} {clock : String → UInt64}

theorem rechunk_unknown (missing : world.manager.disks[diskName]? = none) :
    (rechunk nebu merkle stores files clock diskName world).2 = world := by
  rcases rechunk_cases nebu merkle stores files clock diskName world with
    ⟨-, reason, run⟩ | ⟨config, found, -⟩
  · exact congrArg Prod.snd run
  · cases missing.symm.trans found

/-- The stores of other devices stay what they are. -/
theorem rechunk_stores {deviceName : String}
    (foreign : deviceName ∉ world.manager.deviceNames diskName) :
    (rechunk nebu merkle stores files clock diskName world).2.manager.stores[deviceName]? =
      world.manager.stores[deviceName]? := by
  cases disk : world.manager.disks[diskName]? with
  | none => rw [rechunk_unknown disk]
  | some config =>
      rw [rechunk_snd nebu merkle stores files clock disk]
      refine Loop.run_stores foreign fun none_attached => if_neg fun enough => ?_
      have few : (world.manager.deviceNames diskName).length = 0 :=
        congrArg List.length none_attached
      exact absurd enough.1 (Nat.not_le.mpr (few ▸ Nat.two_pos))

theorem framed_iff_spares (name : String) :
    world.Framed (rechunk nebu merkle stores files clock diskName world).2 name ↔
      ∀ config, world.manager.disks[diskName]? = some config →
        (world.loop nebu merkle stores files clock diskName config).Spares world name := by
  cases disk : world.manager.disks[diskName]? with
  | none =>
      rw [rechunk_unknown disk]
      exact iff_of_true (.refl world name) fun config found => nomatch found
  | some config =>
      rw [rechunk_snd nebu merkle stores files clock disk, ← Loop.spares_iff]
      exact ⟨fun spares other found => Option.some.inj found ▸ spares,
        fun spares => spares config rfl⟩

end Rechunk

/-- Whatever it returns, `rechunk` of a disk leaves alone the stores of other devices, and
of the files exactly those that its loop spares.  Among them are those that have the
parameters of the disk and whose chunks its devices have already. -/
theorem rechunk_frame (nebu : Nebu) (merkle : HemeraTree) (world : World hemera)
    (diskName : String) (stores files : Walk) (clock : String → UInt64) :
    let names := world.manager.deviceNames diskName
    let rechunked := rechunk nebu merkle stores files clock diskName world
    (∀ deviceName ∉ names,
      rechunked.2.manager.stores[deviceName]? = world.manager.stores[deviceName]?) ∧
    ∀ name, (world.Framed rechunked.2 name ↔
        ∀ config, world.manager.disks[diskName]? = some config →
          (world.loop nebu merkle stores files clock diskName config).Spares world name) ∧
      ((∀ config, world.manager.disks[diskName]? = some config → 2 ≤ names.length →
          config.redundancy.failures names.length ≤ names.length →
          name ∉ world.outdated files (names.length - config.redundancy.failures names.length)
              (nextPowerOfTwo names.length) ∧
            ∀ entry, world.manager.registry.getRaw name = some entry →
              ∀ hex ∈ entry.shardHashes, ∀ deviceName ∈ names,
                deviceName ∈ world.manager.stores → world.Placed deviceName hex) →
        world.Framed rechunked.2 name) := by
  intro names rechunked
  refine ⟨fun deviceName => rechunk_stores, fun name => ⟨framed_iff_spares name, ?_⟩⟩
  intro settled
  refine (framed_iff_spares name).mpr fun config disk => ?_
  by_cases enough : 2 ≤ names.length ∧ config.redundancy.failures names.length ≤ names.length
  · obtain ⟨current, placed⟩ := settled config disk enough.1 enough.2
    refine Loop.spares_of_not_mem ?_
      (List.length_pos_iff.mp (Nat.lt_of_lt_of_le Nat.two_pos enough.1)) placed
    rw [loop, if_pos enough]
    exact current
  · exact Loop.spares_of_nil (if_neg enough)

/-- A new device on the file's own disk. -/
theorem rechunk_frame_one_note :
    let world := (attach "phone" "work" 0 oneNote).2
    let rechunked := rechunk naiveNebu .truncating .sorted .sorted (fun _ => 6) "work" world
    rechunked.1 = .ok (1, 0) ∧ ¬ world.Framed rechunked.2 "notes" ∧
      world.Framed rechunked.2 "letters" := by
  intro world rechunked
  obtain ⟨disk, names, outdated, read⟩ := oneNote_outdated world rfl
  have two : (world.manager.deviceNames "work").length = 2 := by rw [names]; rfl
  have facts : (∀ kept ∈ world.manager.registry.files.toList,
        kept.2.timestamp.toNat + 1 ≠ 2 ^ 64) ∧
      world.manager.registry.getRaw "letters" = none := by
    simp only [world, oneNote]
    rw [naiveNebu_eq]
    decide +kernel
  obtain ⟨early, absent⟩ := facts
  have run : rechunked = _ := rechunk_single disk (two ▸ by decide) (two ▸ rfl) (two ▸ outdated)
    read (two ▸ oneNote_coded)
  have returned : rechunked.1 = .ok (1, 0) := by
    rw [names] at run
    rw [run]
    simp only [world, oneNote]
    rw [naiveNebu_eq]
    decide +kernel
  obtain ⟨-, framed⟩ := rechunk_frame naiveNebu .truncating world "work" .sorted .sorted fun _ => 6
  refine ⟨returned, ?_, ?_⟩
  · intro same
    have spares := (framed "notes").1.mp same _ disk
    have encodes : (world.loop naiveNebu .truncating .sorted .sorted (fun _ => 6) "work"
        { name := "work", redundancy := .tolerate 0, shardCopies := 1 }).Encodes world "notes" world
        [7] [⟨0, [7]⟩, ⟨1, [7]⟩] := by
      refine ⟨(oneNote_turn_iff names outdated _).mpr ⟨rfl, rfl⟩, read, ?_⟩
      simp only [loop, Loop.n, names]
      exact oneNote_coded
    rcases spares.entry world _ _ encodes with ⟨shard, now, comes, refused⟩ | ⟨held, found, last, -⟩
    · rcases rechunk_eq_loop naiveNebu .truncating .sorted .sorted (fun _ => 6) disk with
        looped | ⟨aborted, -⟩
      · exact refused (Loop.Deals.accepts ⟨_, _, _, _, encodes, comes⟩
          ((congrArg Prod.fst looped).symm.trans returned))
      · cases (congrArg Prod.fst aborted).symm.trans returned
    · exact early _ (Std.ExtTreeMap.mem_toList_iff_getElem?_eq_some.mpr found) last
  · refine (framed "letters").2 fun config found _ _ => ?_
    cases disk.symm.trans found
    constructor
    · rw [two]
      change "letters" ∉ world.outdated .sorted 2 2
      rw [outdated]
      decide
    · intro entry held
      cases absent.symm.trans held

/-- A file that was put on one disk is rewritten by `rechunk` of another, with the
parameters and on the devices of that disk. -/
theorem rechunk_rewrites_other_disk :
    let world := oneNote.run naiveNebu .truncating
      [.createDisk { name := "backup", redundancy := .tolerate 0, shardCopies := 1 },
        .attach "phone" "backup" 0, .attach "tablet" "backup" 0]
    let rechunked := rechunk naiveNebu .truncating .sorted .sorted (fun _ => 6) "backup" world
    let chunk := digest .truncating ⟨0, [7]⟩
    world.manager.deviceNames "work" = ["ssd"] ∧
      world.manager.deviceNames "backup" = ["phone", "tablet"] ∧
      rechunked.1 = .ok (1, 0) ∧
      (world.manager.registry.getRaw "notes").map (fun entry => (entry.k, entry.n)) =
        some (1, 1) ∧
      (rechunked.2.manager.registry.getRaw "notes").map (fun entry => (entry.k, entry.n)) =
        some (2, 2) ∧
      (world.manager.stores["phone"]?.map fun store => store.has world.tree chunk) =
        some false ∧
      (rechunked.2.manager.stores["phone"]?.map fun store => store.has rechunked.2.tree chunk) =
        some true := by
  intro world rechunked chunk
  have facts : world.manager.disks["backup"]? =
        some { name := "backup", redundancy := .tolerate 0, shardCopies := 1 } ∧
      world.manager.deviceNames "backup" = ["phone", "tablet"] ∧
      world.outdated .sorted 2 2 = ["notes"] ∧
      world.getFile naiveNebu .sorted "notes" = .ok [7] := by
    simp only [world, oneNote]
    rw [naiveNebu_eq]
    decide +kernel
  obtain ⟨disk, names, outdated, read⟩ := facts
  have two : (world.manager.deviceNames "backup").length = 2 := by rw [names]; rfl
  have run : rechunked = _ := rechunk_single disk (two ▸ by decide) (two ▸ rfl) (two ▸ outdated) read
    (two ▸ oneNote_coded)
  rw [names] at run
  rw [run]
  simp only [world, chunk, oneNote]
  rw [naiveNebu_eq]
  decide +kernel


end World

end Foculus.VDisk

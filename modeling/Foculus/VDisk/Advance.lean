import Foculus.VDisk.Reading

namespace Foculus.VDisk.World

open Data Erasure Store

/-! # What a run of `rechunk` keeps where nothing is damaged

While no device is full and every entry names the shards of an encoding or chunks
that are all there, each file stands for the same data in every world that a run
passes. -/

variable {hemera : Hemera} {nebu : Nebu}

def Settled (world : World hemera) (nebu : Nebu) : Prop :=
  ∀ name entry, world.manager.registry.get name = some entry →
    (∃ data shards, Codes nebu hemera entry data shards) ∨ world.Whole entry

/-- The data that a file stands for. -/
def Yields (world : World hemera) (nebu : Nebu) (name : String) (data : List UInt8) : Prop :=
  ∃ entry, world.manager.registry.get name = some entry ∧
    ((∃ shards, Codes nebu hemera entry data shards) ∨
      world.Whole entry ∧ ∃ stores, world.getFile nebu stores name = .ok data)

/-- The chunks that matter when the files are encoded with new parameters: what
the stores have, what the entries name, and what the files are encoded to. -/
def chunksAtHand (world : World hemera) (nebu : Nebu) (k n : Nat) : Set (List UInt8) :=
  {bytes | ∃ hash, world.Stores (hemera.toHex hash) bytes} ∪
  {bytes | ∃ name entry data shards, world.manager.registry.get name = some entry ∧
    Codes nebu hemera entry data shards ∧ ∃ shard ∈ shards, bytes = shardToBytes shard} ∪
  {bytes | ∃ name data shards, world.Yields nebu name data ∧ encode nebu data k n = some shards ∧
    ∃ shard ∈ shards, bytes = shardToBytes shard}

section Advance

variable {world after : World hemera} {chunks : Set (List UInt8)} {name : String}
  {data : List UInt8}

/-- A file of the later world that is not as it was stands for the same data,
with all of its shards stored. -/
structure Rewritten (world after : World hemera) (nebu : Nebu) (chunks : Set (List UInt8))
    (name : String) (entry : FileEntry) (data : List UInt8) (shards : List Shard) : Prop
    extends Recoded after nebu chunks name entry data shards where
  yields : world.Yields nebu name data

/-- What holds of every world that a run of `rechunk` passes. -/
structure Advanced (world : World hemera) (nebu : Nebu) (chunks : Set (List UInt8))
    (after : World hemera) : Prop where
  grows : world.Grows after
  sound : after.Sound chunks
  entries : ∀ name, after.manager.registry.get name = world.manager.registry.get name ∨
    ∃ entry data shards, Rewritten world after nebu chunks name entry data shards

/-- The chunks the files name are among those at hand. -/
def Covers (chunks : Set (List UInt8)) (world : World hemera) (nebu : Nebu) : Prop :=
  ∀ name entry data shards, world.manager.registry.get name = some entry →
    Codes nebu hemera entry data shards → ∀ shard ∈ shards, shardToBytes shard ∈ chunks

/-- What `get_file` returns while `rechunk` runs is what the file stood for. -/
theorem Advanced.yields (lawful : nebu.Lawful) (printed : hemera.toHex = hexText)
    (free : hemera.CollisionFree chunks)
    (sound : world.Sound chunks) (covers : Covers chunks world nebu) (settled : world.Settled nebu)
    (advanced : world.Advanced nebu chunks after) {stores : Walk}
    (returned : after.getFile nebu stores name = .ok data) : world.Yields nebu name data := by
  rcases advanced.entries name with same | ⟨entry, other, shards, rewritten⟩
  · cases registered : world.manager.registry.get name with
    | none =>
        rw [registered] at same
        simp [World.getFile, same] at returned
    | some entry =>
        rw [registered] at same
        rcases settled name entry registered with ⟨stated, shards, codes⟩ | whole
        · have genuine := advanced.sound.genuine printed free
            (covers name entry stated shards registered codes)
          rw [codes.getFile_eq lawful printed genuine same] at returned
          split_ifs at returned
          cases returned
          exact ⟨entry, registered, .inl ⟨shards, codes⟩⟩
        · rw [whole.noneNew.getFile_eq printed free sound advanced.sound advanced.grows stores stores
            registered same] at returned
          exact ⟨entry, registered, .inr ⟨whole, stores, returned⟩⟩
  · rw [rewritten.toRecoded.getFile lawful printed free advanced.sound stores] at returned
    cases returned
    exact rewritten.yields

theorem Advanced.puts {between : World hemera} {shards : List Shard} (roomy : world.Roomy)
    (advanced : world.Advanced nebu chunks between) (puts : Puts shards between after)
    (known : ∀ shard ∈ shards, shardToBytes shard ∈ chunks) :
    world.Advanced nebu chunks after where
  grows := advanced.grows.trans puts.grows
  sound := by
    refine ⟨puts.honest (advanced.grows.roomy roomy) advanced.sound.honest, ?_⟩
    intro hash bytes held
    rcases puts.chunks (advanced.grows.roomy roomy) held with before | ⟨shard, member, -, rfl⟩
    · exact advanced.sound.within before
    · exact known shard member
  entries := by
    intro name
    rw [puts.registry]
    rcases advanced.entries name with same | ⟨entry, data, shards, rewritten⟩
    · exact .inl same
    · refine .inr ⟨entry, data, shards, ⟨by rw [puts.registry]; exact rewritten.registered,
        rewritten.codes, rewritten.known, ?_⟩, rewritten.yields⟩
      intro shard member
      obtain ⟨bytes, held⟩ := rewritten.there shard member
      exact puts.grows.holds held

/-- A file that is rewritten stands for what it stood for. -/
theorem Advanced.register {merkle : HemeraTree} {now : UInt64} {config : DiskConfig} {k n : Nat}
    {fileName : String} {shards : List Shard} {registry : GSet}
    (advanced : world.Advanced nebu chunks after) (yields : world.Yields nebu fileName data)
    (coded : encode nebu data k n = some shards) (bound : n ≤ 2 ^ 32)
    (known : ∀ shard ∈ shards, shardToBytes shard ∈ chunks)
    (there : ∀ shard ∈ shards, ∃ bytes, after.Stores (chunkName hemera shard) bytes) :
    world.Advanced nebu chunks (after.register (World.rewritten merkle hemera now config k n fileName
      data shards (shards.map (chunkName hemera)) registry)) where
  grows := advanced.grows.register _
  sound := ⟨advanced.sound.honest, advanced.sound.within⟩
  entries := by
    intro name
    have held := after.manager.registry.getRaw_insert_cases (World.rewritten merkle hemera now config
      k n fileName data shards (shards.map (chunkName hemera)) registry) name
    rcases held with same | ⟨rfl, held⟩
    · have live := congrArg (Option.filter (!·.deleted)) same
      rcases advanced.entries name with before | ⟨entry, data, shards, rewritten⟩
      · exact .inl (live.trans before)
      · exact .inr ⟨entry, data, shards, ⟨live.trans rewritten.registered, rewritten.codes,
          rewritten.known, rewritten.there⟩, rewritten.yields⟩
    · have live := congrArg (Option.filter (!·.deleted)) held
      exact .inr ⟨_, data, shards, ⟨live, ⟨coded, bound, rfl, rfl⟩, known, there⟩, yields⟩

end Advance

section Rechunk

variable {merkle : HemeraTree} {config : DiskConfig} {deviceNames : List String} {k n : Nat}
  {world : World hemera} {chunks : Set (List UInt8)}

/-- The chunks that the files are encoded to are among those at hand. -/
def Reencodes (chunks : Set (List UInt8)) (world : World hemera) (nebu : Nebu) (k n : Nat) : Prop :=
  ∀ name data shards, world.Yields nebu name data → encode nebu data k n = some shards →
    ∀ shard ∈ shards, shardToBytes shard ∈ chunks

/-- The state a disk has to be in for its files to survive `rechunk`. -/
structure Ready (world : World hemera) (nebu : Nebu) (chunks : Set (List UInt8))
    (deviceNames : List String) (k n : Nat) : Prop where
  nonempty : deviceNames ≠ []
  equipped : ∀ name ∈ deviceNames, name ∈ world.manager.stores
  bound : n ≤ 2 ^ 32
  roomy : world.Roomy
  sound : world.Sound chunks
  settled : world.Settled nebu
  covers : Covers chunks world nebu
  reencodes : Reencodes chunks world nebu k n

/-- A round keeps what the run has kept. -/
theorem rechunkFile_advances (lawful : nebu.Lawful) (printed : hemera.toHex = hexText)
    (free : hemera.CollisionFree chunks) (ready : world.Ready nebu chunks deviceNames k n)
    (merkle : HemeraTree) (config : DiskConfig) (stores : Walk) (now : UInt64)
    (fileName : String) :
    (rechunkFile nebu merkle stores now config deviceNames k n fileName).Keeps
      (world.Advanced nebu chunks) := by
  refine Action.keeps_iff_triple.mpr fun between advanced => ?_
  refine (rechunkFile_spec between).consequence (fun _ => id) ?_ ?_ ?_ between rfl
  · rintro _ after (⟨-, -, rfl⟩ | ⟨-, data, shards, hashes, dealt, read, coded, distributed, rfl⟩)
    · exact advanced
    · have yields := advanced.yields lawful printed free ready.sound ready.covers ready.settled read
      have known := ready.reencodes fileName data shards yields coded
      have equipped : ∀ name ∈ deviceNames, name ∈ between.manager.stores :=
        fun name member => advanced.grows.mem_stores (ready.equipped name member)
      have done := distribute_ok ready.nonempty equipped distributed
      have puts := distribute_returned distributed
      rw [done.hashes_eq]
      refine (advanced.puts ready.roomy puts known).register yields coded ready.bound known ?_
      intro shard member
      obtain ⟨store, opened, held⟩ := done.indexed shard member
      rw [Std.ExtTreeMap.mem_iff_isSome_getElem?, Option.isSome_iff_exists] at held
      obtain ⟨bytes, indexed⟩ := held
      exact ⟨bytes, _, store, opened, .inl indexed⟩
  · rintro after ⟨data, shards, read, coded, puts⟩
    have yields := advanced.yields lawful printed free ready.sound ready.covers ready.settled read
    exact advanced.puts ready.roomy puts (ready.reencodes fileName data shards yields coded)
  · rintro after ⟨rfl, -⟩
    exact advanced

theorem Advanced.refl (sound : world.Sound chunks) : world.Advanced nebu chunks world :=
  ⟨.refl world, sound, fun _ => .inl rfl⟩

theorem rounds_advances (lawful : nebu.Lawful) (printed : hemera.toHex = hexText)
    (free : hemera.CollisionFree chunks)
    (ready : world.Ready nebu chunks deviceNames k (nextPowerOfTwo deviceNames.length))
    (merkle : HemeraTree) (config : DiskConfig) (stores : Walk) (clock : String → UInt64)
    (fileNames : List String) :
    (rounds nebu merkle stores clock config deviceNames k fileNames).Keeps
      (world.Advanced nebu chunks) :=
  rounds_keeps fun fileName _ =>
    rechunkFile_advances lawful printed free ready merkle config stores (clock fileName) fileName

end Rechunk

section AtHand

variable {world : World hemera}

theorem Honest.sound_chunksAtHand (honest : world.Honest) (nebu : Nebu) (k n : Nat) :
    world.Sound (world.chunksAtHand nebu k n) :=
  ⟨honest, fun held => .inl (.inl ⟨_, held⟩)⟩

theorem covers_chunksAtHand (world : World hemera) (nebu : Nebu) (k n : Nat) :
    Covers (world.chunksAtHand nebu k n) world nebu :=
  fun name entry data shards registered codes shard member =>
    .inl (.inr ⟨name, entry, data, shards, registered, codes, shard, member, rfl⟩)

theorem reencodes_chunksAtHand (world : World hemera) (nebu : Nebu) (k n : Nat) :
    Reencodes (world.chunksAtHand nebu k n) world nebu k n :=
  fun name data shards yields coded shard member =>
    .inr ⟨name, data, shards, yields, coded, shard, member, rfl⟩

/-- A state in which nothing that `rechunk` reads or writes is damaged. -/
structure Secure (world : World hemera) (nebu : Nebu) (k n : Nat) : Prop where
  equipped : world.Equipped
  honest : world.Honest
  roomy : world.Roomy
  settled : world.Settled nebu
  free : hemera.CollisionFree (world.chunksAtHand nebu k n)

theorem Secure.ready {nebu : Nebu} {k n : Nat} {diskName : String}
    (secure : world.Secure nebu k n) (attached : world.manager.deviceNames diskName ≠ [])
    (bound : n ≤ 2 ^ 32) :
    world.Ready nebu (world.chunksAtHand nebu k n) (world.manager.deviceNames diskName) k n where
  nonempty := attached
  equipped := by
    intro name member
    obtain ⟨attachment, kept, rfl⟩ := List.mem_map.mp member
    exact secure.equipped attachment (List.mem_filter.mp kept).1
  bound := bound
  roomy := secure.roomy
  sound := secure.honest.sound_chunksAtHand nebu k n
  settled := secure.settled
  covers := world.covers_chunksAtHand nebu k n
  reencodes := world.reencodes_chunksAtHand nebu k n

end AtHand

end Foculus.VDisk.World

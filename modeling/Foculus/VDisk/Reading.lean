import Foculus.VDisk.Calls
import Foculus.VDisk.Growth

namespace Foculus.VDisk.World

open Data Erasure Store

/-! # When two worlds read a file alike

A file is read back as long as what its entry names stays what it was: the
entry names the shards of an encoding, or no chunk that it names is new. -/

variable {hemera : Hemera} {nebu : Nebu}

/-- The entry names the shards of an encoding of the data. -/
structure Codes (nebu : Nebu) (hemera : Hemera) (entry : FileEntry) (data : List UInt8)
    (shards : List Shard) : Prop where
  coded : encode nebu data entry.k entry.n = some shards
  bound : entry.n ≤ 2 ^ 32
  length : entry.originalLen = data.length
  hashes : entry.shardHashes = shards.map (chunkName hemera)

/-- Some store has a chunk under each hash of the entry. -/
def Whole (world : World hemera) (entry : FileEntry) : Prop :=
  ∀ hex ∈ entry.shardHashes, ∀ hash, hexToHash hex = .ok hash →
    ∃ bytes, world.Stores (hemera.toHex hash) bytes

/-- Chunks that have their hashes for names, without a collision among them. -/
structure Sound (world : World hemera) (chunks : Set (List UInt8)) : Prop where
  honest : world.Honest
  within : ∀ {hash bytes}, world.Stores (hemera.toHex hash) bytes → bytes ∈ chunks

section Addressed

/-- Every file that has a hash for a name matches it, wherever it lies. -/
structure Addressed (world : World hemera) (chunks : Set (List UInt8)) : Prop where
  files : ∀ hash place bytes, world.tree.node (hemera.toHex hash :: place) = some (.file bytes) →
    hemera.toHex (hemera.hash bytes) = hemera.toHex hash ∧ bytes ∈ chunks
  index : ∀ (name : String) (store : ChunkStore hemera) (hex : String) (bytes : List UInt8),
    world.manager.stores[name]? = some store → store.index[hex]? = some bytes → bytes ∈ chunks

variable {world after : World hemera} {chunks : Set (List UInt8)}

theorem Addressed.sound (addressed : world.Addressed chunks) : world.Sound chunks where
  honest := by
    rintro hash bytes ⟨name, store, opened, indexed | file⟩
    · exact store.addressed indexed
    · exact (addressed.files hash store.root bytes file).1
  within := by
    rintro hash bytes ⟨name, store, opened, indexed | file⟩
    · exact addressed.index name store _ bytes opened indexed
    · exact (addressed.files hash store.root bytes file).2

theorem Puts.addressed {shards : List Shard} (puts : Puts shards world after) (roomy : world.Roomy)
    (known : ∀ shard ∈ shards, shardToBytes shard ∈ chunks) (addressed : world.Addressed chunks) :
    after.Addressed chunks where
  files := by
    intro hash place bytes file
    rcases puts.files roomy file with before | ⟨shard, member, named, rfl⟩
    · exact addressed.files hash place bytes before
    · exact ⟨named.symm, known shard member⟩
  index := by
    intro name store hex bytes opened indexed
    have named := store.addressed indexed
    rcases puts.chunks roomy ⟨name, store, opened, .inl indexed⟩ with held | ⟨shard, member, -, rfl⟩
    · rw [← named] at held
      exact addressed.sound.within held
    · exact known shard member

/-- `attach` writes no file, and a store that it opens is empty. -/
theorem attach_adds (deviceName diskName : String) (capacity : UInt64) (world : World hemera) :
    world.tree.Within (attach deviceName diskName capacity world).2.tree ∧
      ∀ (name : String) (store : ChunkStore hemera),
        (attach deviceName diskName capacity world).2.manager.stores[name]? = some store →
          world.manager.stores[name]? = some store ∨ store.index = ∅ := by
  have opened := @ChunkStore.new_within hemera world.tree world.manager.baseDir deviceName capacity
    world.tree (.refl world.tree)
  simp only [attach]
  split_ifs
  · exact ⟨.refl world.tree, fun _ _ => .inl⟩
  · rcases called : @ChunkStore.new hemera world.manager.baseDir deviceName capacity
      world.tree with ⟨outcome, tree⟩
    rw [called] at opened
    cases outcome with
    | ok store =>
        refine ⟨opened, ?_⟩
        intro name other found
        rw [Std.ExtTreeMap.getElem?_insert] at found
        split_ifs at found
        · cases found
          exact .inr (ChunkStore.new_index called)
        · exact .inl found
    | err fault => exact ⟨opened, fun _ _ => .inl⟩
    | panic => exact ⟨opened, fun _ _ => .inl⟩
  · exact ⟨.refl world.tree, fun _ _ => .inl⟩

theorem attach_registry (deviceName diskName : String) (capacity : UInt64) (world : World hemera) :
    (attach deviceName diskName capacity world).2.manager.registry = world.manager.registry := by
  simp only [attach]
  split_ifs
  · rfl
  · split <;> rfl
  · rfl

theorem attach_addressed (deviceName diskName : String) (capacity : UInt64) :
    (attach deviceName diskName capacity : Action (World hemera) _ _).Keeps
      (Addressed · chunks) := by
  intro world addressed
  obtain ⟨within, opened⟩ := attach_adds deviceName diskName capacity world
  refine ⟨fun hash place bytes file => addressed.files hash place bytes (within.files _ _ file), ?_⟩
  intro name store hex bytes found indexed
  rcases opened name store found with before | empty
  · exact addressed.index name store hex bytes before indexed
  · rw [empty] at indexed
    simp at indexed

theorem putFile_addressed {merkle : HemeraTree} (now : UInt64) (diskName fileName : String)
    (data : List UInt8) (roomy : world.Roomy)
    (known : ∀ shard ∈ world.shardsOf nebu diskName data, shardToBytes shard ∈ chunks)
    (addressed : world.Addressed chunks) :
    (putFile nebu merkle now diskName fileName data world).2.Addressed chunks := by
  obtain ⟨between, puts, after | ⟨entry, after⟩⟩ :=
    putFile_puts nebu merkle now diskName fileName data world
  · exact after ▸ puts.addressed roomy known addressed
  · have later := puts.addressed roomy known addressed
    rw [after]
    exact ⟨later.files, later.index⟩

end Addressed

section Reading

variable {world after : World hemera} {chunks : Set (List UInt8)}

theorem Grows.holds (grows : world.Grows after) {hex : String} {bytes : List UInt8}
    (held : world.Stores hex bytes) : ∃ other, after.Stores hex other := by
  obtain ⟨name, store, opened, held⟩ := held
  obtain ⟨kept, found, root, index⟩ := grows.opened opened
  rcases held with indexed | file
  · have member := index hex (Std.ExtTreeMap.mem_iff_isSome_getElem?.mpr (by rw [indexed]; rfl))
    rw [Std.ExtTreeMap.mem_iff_isSome_getElem?, Option.isSome_iff_exists] at member
    obtain ⟨other, indexed⟩ := member
    exact ⟨other, name, kept, found, .inl indexed⟩
  · exact ⟨bytes, name, kept, found, .inr (root ▸ grows.files file)⟩

/-- Two sound worlds have the same bytes under a hash. -/
theorem Sound.unique (printed : hemera.toHex = hexText) (free : hemera.CollisionFree chunks)
    (sound : world.Sound chunks) (later : after.Sound chunks) {hash : Particle}
    {bytes other : List UInt8} (held : world.Stores (hemera.toHex hash) bytes)
    (heldLater : after.Stores (hemera.toHex hash) other) : bytes = other := by
  have first := sound.honest hash bytes held
  have second := later.honest hash other heldLater
  rw [printed] at first second
  exact free (sound.within held) (later.within heldLater)
    ((hexText_injective first).trans (hexText_injective second).symm)

theorem findShard_isSome_iff (stores : Walk) (index : Nat) {hash : Particle} :
    (world.findShard stores index hash).isSome = true ↔
      ∃ bytes, world.Stores (hemera.toHex hash) bytes := by
  constructor
  · intro found
    obtain ⟨shard, found⟩ := Option.isSome_iff_exists.mp found
    obtain ⟨bytes, returned, -⟩ := findShard_some found
    exact ⟨bytes, returned.stores⟩
  · rintro ⟨bytes, name, store, opened, held⟩
    have walked : name ∈ stores.order world.manager.stores.keys := by
      rw [(stores.perm _).mem_iff, Std.ExtTreeMap.mem_keys, Std.ExtTreeMap.mem_iff_isSome_getElem?,
        opened]
      rfl
    rw [findShard, List.findSome?_isSome_iff]
    refine ⟨name, walked, ?_⟩
    rw [opened, Option.bind_some, ChunkStore.get]
    cases indexed : store.index[hemera.toHex hash]? with
    | some kept => rfl
    | none =>
        rcases held with here | file
        · rw [indexed] at here
          cases here
        · simp only [FileTree.read, file]
          rfl

/-- No chunk that the entry names is there but those that were. -/
def NoneNew (world after : World hemera) (entry : FileEntry) : Prop :=
  ∀ hex ∈ entry.shardHashes, ∀ hash, hexToHash hex = .ok hash →
    (∃ bytes, after.Stores (hemera.toHex hash) bytes) →
      ∃ bytes, world.Stores (hemera.toHex hash) bytes

theorem Whole.noneNew {entry : FileEntry} (whole : world.Whole entry) :
    world.NoneNew after entry :=
  fun hex member hash parsed _ => whole hex member hash parsed

/-- A chunk that is not new is read alike in both worlds. -/
theorem Sound.findShard_eq (printed : hemera.toHex = hexText) (free : hemera.CollisionFree chunks)
    (sound : world.Sound chunks) (later : after.Sound chunks) (grows : world.Grows after)
    (stores walk : Walk) {hash : Particle}
    (known : (∃ bytes, after.Stores (hemera.toHex hash) bytes) →
      ∃ bytes, world.Stores (hemera.toHex hash) bytes) (index : Nat) :
    after.findShard walk index hash = world.findShard stores index hash := by
  cases foundLater : after.findShard walk index hash with
  | none =>
      cases found : world.findShard stores index hash with
      | none => rfl
      | some shard =>
          obtain ⟨bytes, held⟩ :=
            (findShard_isSome_iff stores index).mp (Option.isSome_of_eq_some found)
          have now := (findShard_isSome_iff walk index).mpr (grows.holds held)
          rw [foundLater] at now
          cases now
  | some shard =>
      have there := known
        ((findShard_isSome_iff walk index).mp (Option.isSome_of_eq_some foundLater))
      obtain ⟨old, found⟩ :=
        Option.isSome_iff_exists.mp ((findShard_isSome_iff stores index).mpr there)
      obtain ⟨read, heldRead, rfl⟩ := findShard_some found
      obtain ⟨readLater, heldLater, rfl⟩ := findShard_some foundLater
      rw [found, sound.unique printed free later heldRead.stores heldLater.stores]

theorem collect_congr {stores walk : Walk} {hashes : List (String × Nat)}
    (same : ∀ hex ∈ hashes.map Prod.fst, ∀ hash, hexToHash hex = .ok hash →
      ∀ index, after.findShard walk index hash = world.findShard stores index hash) :
    after.collect walk hashes = world.collect stores hashes := by
  induction hashes with
  | nil => rfl
  | cons first rest ih =>
      obtain ⟨hex, index⟩ := first
      rw [collect, collect]
      cases parsed : hexToHash hex with
      | error reason => rfl
      | ok hash =>
          rw [ih fun other member => same other (List.mem_cons_of_mem _ member)]
          simp only [bind, Except.bind, same hex List.mem_cons_self hash parsed index]

/-- A file is read alike in both worlds when the chunks its entry names are. -/
theorem getFile_congr {stores walk : Walk} {name : String} {entry : FileEntry}
    (registered : world.manager.registry.get name = some entry)
    (kept : after.manager.registry.get name = some entry)
    (same : ∀ hex ∈ entry.shardHashes, ∀ hash, hexToHash hex = .ok hash →
      ∀ index, after.findShard walk index hash = world.findShard stores index hash) :
    after.getFile nebu walk name = world.getFile nebu stores name := by
  have named : ∀ hex ∈ entry.shardHashes.zipIdx.map Prod.fst, ∀ hash, hexToHash hex = .ok hash →
      ∀ index, after.findShard walk index hash = world.findShard stores index hash := by
    rw [List.zipIdx_map_fst]
    exact same
  simp only [getFile, registered, kept, collect_congr named]

/-- A file of which no chunk is new is read alike in both worlds. -/
theorem NoneNew.getFile_eq (printed : hemera.toHex = hexText) (free : hemera.CollisionFree chunks)
    (sound : world.Sound chunks) (later : after.Sound chunks) (grows : world.Grows after)
    (stores walk : Walk) {name : String} {entry : FileEntry}
    (registered : world.manager.registry.get name = some entry)
    (kept : after.manager.registry.get name = some entry) (old : world.NoneNew after entry) :
    after.getFile nebu walk name = world.getFile nebu stores name :=
  getFile_congr registered kept fun hex member hash parsed index =>
    sound.findShard_eq printed free later grows stores walk (old hex member hash parsed) index

end Reading

section Coded

variable {world after : World hemera} {chunks : Set (List UInt8)} {stores walk : Walk}
  {entry : FileEntry} {data : List UInt8} {shards : List Shard} {name : String}

theorem Codes.codeword (lawful : nebu.Lawful) (codes : Codes nebu hemera entry data shards) :
    Codeword nebu data entry.k entry.n shards :=
  encode_codeword lawful codes.bound codes.coded

theorem Sound.genuine (printed : hemera.toHex = hexText) (free : hemera.CollisionFree chunks)
    (sound : world.Sound chunks) (known : ∀ shard ∈ shards, shardToBytes shard ∈ chunks) :
    world.Genuine shards := by
  intro shard member bytes returned
  have named := sound.honest (digest hemera shard) bytes returned.stores
  rw [digest, printed] at named
  exact free (sound.within returned.stores) (known shard member) (hexText_injective named)

/-- A file with a coded entry is read as soon as enough of its shards are there,
and as nothing else. -/
theorem Codes.getFile_eq (lawful : nebu.Lawful) (printed : hemera.toHex = hexText)
    (codes : Codes nebu hemera entry data shards) (genuine : world.Genuine shards)
    (registered : world.manager.registry.get name = some entry) :
    world.getFile nebu stores name =
      if entry.k ≤ (world.available stores shards).length then .ok data
      else .err s!"only {(world.available stores shards).length} of {entry.k} required shards available" := by
  have codeword := codes.codeword lawful
  have indices : shards.map Shard.index = List.range' 0 shards.length := by
    rw [codeword.indices, codeword.length, List.range_eq_range']
  split_ifs with enough
  · exact getFile_ok printed codeword genuine registered rfl rfl codes.length codes.hashes
      enough
  · simp only [getFile, registered, codes.hashes, World.collect_eq printed genuine indices,
      Outcome.ofExcept, Outcome.ok_bind, if_pos (Nat.lt_of_not_le enough)]

theorem Grows.available_le (grows : world.Grows after) (stores walk : Walk)
    (shards : List Shard) :
    (world.available stores shards).length ≤ (after.available walk shards).length := by
  rw [available, available, ← List.countP_eq_length_filter, ← List.countP_eq_length_filter]
  refine List.countP_mono_left fun shard _ found => ?_
  obtain ⟨bytes, held⟩ := (findShard_isSome_iff _ _).mp found
  exact (findShard_isSome_iff _ _).mpr (grows.holds held)

/-- The file's entry names the shards of an encoding of the data, all of them stored. -/
structure Recoded (world : World hemera) (nebu : Nebu) (chunks : Set (List UInt8))
    (name : String) (entry : FileEntry) (data : List UInt8) (shards : List Shard) : Prop where
  registered : world.manager.registry.get name = some entry
  codes : Codes nebu hemera entry data shards
  known : ∀ shard ∈ shards, shardToBytes shard ∈ chunks
  there : ∀ shard ∈ shards, ∃ bytes, world.Stores (chunkName hemera shard) bytes

theorem Recoded.getFile (lawful : nebu.Lawful) (printed : hemera.toHex = hexText)
    (free : hemera.CollisionFree chunks) (sound : world.Sound chunks) {entry : FileEntry}
    {shards : List Shard} (stores : Walk)
    (recoded : Recoded world nebu chunks name entry data shards) :
    world.getFile nebu stores name = .ok data := by
  have genuine := sound.genuine printed free recoded.known
  have all : world.available stores shards = shards := by
    rw [available, List.filter_eq_self]
    exact fun shard member => (findShard_isSome_iff _ _).mpr (recoded.there shard member)
  rw [recoded.codes.getFile_eq lawful printed genuine recoded.registered, all,
    (recoded.codes.codeword lawful).length, if_pos (encode_params recoded.codes.coded).2.2]

/-- A file whose entry stays, and names the shards of an encoding or no chunk that is
new, is read as before. -/
theorem Sound.getFile_kept (lawful : nebu.Lawful) (printed : hemera.toHex = hexText)
    (free : hemera.CollisionFree chunks) (sound : world.Sound chunks) (later : after.Sound chunks)
    (grows : world.Grows after) {stores : Walk} (walk : Walk) {entry : FileEntry}
    (registered : world.manager.registry.get name = some entry)
    (kept : after.manager.registry.get name = some entry)
    (covers : ∀ data shards, Codes nebu hemera entry data shards →
      ∀ shard ∈ shards, shardToBytes shard ∈ chunks)
    (settled : (∃ data shards, Codes nebu hemera entry data shards) ∨ world.NoneNew after entry)
    (readable : world.getFile nebu stores name = .ok data) :
    after.getFile nebu walk name = .ok data := by
  rcases settled with ⟨stated, shards, codes⟩ | old
  · have known := covers stated shards codes
    rw [codes.getFile_eq lawful printed (sound.genuine printed free known) registered] at readable
    split_ifs at readable with enough
    have more := grows.available_le stores walk shards
    rw [codes.getFile_eq lawful printed (later.genuine printed free known) kept,
      if_pos (Nat.le_trans enough more), readable]
  · rw [old.getFile_eq printed free sound later grows stores walk registered kept, readable]

end Coded

end Foculus.VDisk.World

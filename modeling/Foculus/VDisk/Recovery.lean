import Foculus.VDisk.Manager

namespace Foculus.VDisk

open Data Erasure Store

/-! # What a stored file survives

`get_file` takes a shard from the first store that has a chunk of the right
name.  What a store put itself is in its index and has that name as its hash;
what merely lies in a store's directory is read unchecked, so the results here
ask that it pass `verify_chunk`.
-/

section Hex

theorem hexByte_digits : ∀ value < 256,
    hexByte (Nat.digitChar (value / 16)) (Nat.digitChar (value % 16)) = some (UInt8.ofNat value) := by
  decide +kernel

theorem hexBytes_digits (bytes : List UInt8) :
    hexBytes (bytes.flatMap fun byte =>
      [Nat.digitChar (byte.toNat / 16), Nat.digitChar (byte.toNat % 16)]) = some bytes := by
  induction bytes with
  | nil => rfl
  | cons byte rest ih =>
      have head := hexByte_digits byte.toNat byte.toNat_lt
      rw [UInt8.ofNat_toNat] at head
      simp [hexBytes, head, ih]

theorem digitChar_ascii : ∀ value < 16, (Nat.digitChar value).toNat < 128 := by decide

theorem padded_toList (digest : Particle) : Particle.padded digest.toList = digest := by
  ext lane bound
  simp [Particle.padded]

@[simp] theorem hexToHash_hexText (digest : Particle) : hexToHash (hexText digest) = .ok digest := by
  have length : (hexText digest).toList.length = 64 := hexText_length digest
  have ascii : (hexText digest).toList.all (·.toNat < 128) = true := by
    simp only [hexText, String.toList_ofList, List.all_flatMap, List.all_eq_true]
    intro byte _
    have bound := byte.toNat_lt
    simp [digitChar_ascii (byte.toNat / 16) (by omega), digitChar_ascii (byte.toNat % 16) (by omega)]
  have parsed : hexBytes (hexText digest).toList = some digest.toList := by
    rw [hexText, String.toList_ofList, hexBytes_digits]
  simp [hexToHash, length, ascii, parsed, padded_toList]

end Hex

section Sizes

theorem le_nextPowerOfTwo (n : Nat) : n ≤ nextPowerOfTwo n := by
  rw [nextPowerOfTwo]
  split_ifs with small
  · exact small
  · have bound := Nat.lt_log2_self (n := n - 1)
    omega

theorem nextPowerOfTwo_le {n bits : Nat} (bound : n ≤ 2 ^ bits) : nextPowerOfTwo n ≤ 2 ^ bits := by
  rw [nextPowerOfTwo]
  split_ifs with small
  · exact Nat.one_le_two_pow
  · apply Nat.pow_le_pow_right (by decide)
    have below : n - 1 < 2 ^ bits := by omega
    exact (Nat.log2_lt (by omega)).mpr below

theorem isPowerOfTwo_nextPowerOfTwo (n : Nat) : isPowerOfTwo (nextPowerOfTwo n) = true := by
  rw [nextPowerOfTwo]
  split_ifs
  · rfl
  · rw [isPowerOfTwo, Nat.log2_two_pow]
    simp

theorem checkedSub_eq_some {left right difference : Nat}
    (subtracted : checkedSub left right = some difference) : left = difference + right := by
  rw [checkedSub] at subtracted
  split_ifs at subtracted with bound
  cases subtracted
  omega

theorem checkedSub_eq_none {left right : Nat} : checkedSub left right = none ↔ left < right := by
  rw [checkedSub]
  split_ifs with bound
  · simp [bound]
  · simp [Nat.not_le.mp bound]

end Sizes

variable {hemera : Hemera}

def deviceOf (deviceNames : List String) (shard : Shard) : String :=
  deviceNames.getD (shard.index % deviceNames.length) ""

/-- The walk that comes to this key first. -/
def Walk.startingAt (key : String) : Walk where
  order keys := if key ∈ keys then key :: keys.erase key else keys
  perm keys := by
    split_ifs with member
    · exact (List.perm_cons_erase member).symm
    · exact .refl _

namespace World

/-- The device's store has the chunk in its index. -/
def Indexed (world : World hemera) (deviceName hex : String) : Prop :=
  ∃ store : ChunkStore hemera, world.manager.stores[deviceName]? = some store ∧ hex ∈ store.index

/-- Something a store can return: it is in an index, or in a file of a store's directory. -/
def Stores (world : World hemera) (hex : String) (bytes : List UInt8) : Prop :=
  ∃ (deviceName : String) (store : ChunkStore hemera),
    world.manager.stores[deviceName]? = some store ∧
    (store.index[hex]? = some bytes ∨ world.tree.node (hex :: store.root) = some (.file bytes))

/-- What a store returns: the chunk of its index, or without one the file of its directory. -/
def Returns (world : World hemera) (hex : String) (bytes : List UInt8) : Prop :=
  ∃ (deviceName : String) (store : ChunkStore hemera),
    world.manager.stores[deviceName]? = some store ∧
    (store.index[hex]? = some bytes ∨ hex ∉ store.index ∧
      world.tree.node (hex :: store.root) = some (.file bytes))

theorem Returns.stores {world : World hemera} {hex : String} {bytes : List UInt8}
    (returned : world.Returns hex bytes) : world.Stores hex bytes := by
  obtain ⟨deviceName, store, opened, indexed | ⟨-, file⟩⟩ := returned
  · exact ⟨deviceName, store, opened, .inl indexed⟩
  · exact ⟨deviceName, store, opened, .inr file⟩

/-- The files that the stores' directories hold under these names pass `verify_chunk`. -/
def Intact (world : World hemera) (names : List String) : Prop :=
  ∀ (deviceName : String) (store : ChunkStore hemera),
    world.manager.stores[deviceName]? = some store →
    ∀ hex ∈ names, ∀ bytes, world.tree.node (hex :: store.root) = some (.file bytes) →
      verifyChunk hemera bytes hex = true

/-- So do the files that stay without an entry in the index of their store when these
shards are dealt to the devices: only such a file is ever read. -/
def ReadIntact (world : World hemera) (deviceNames : List String) (shards : List Shard) : Prop :=
  ∀ (deviceName : String) (store : ChunkStore hemera),
    world.manager.stores[deviceName]? = some store →
    ∀ shard ∈ shards, chunkName hemera shard ∉ store.index →
      (∀ other ∈ shards, chunkName hemera other = chunkName hemera shard →
        deviceOf deviceNames other ≠ deviceName) →
      ∀ bytes, world.tree.node (chunkName hemera shard :: store.root) = some (.file bytes) →
        verifyChunk hemera bytes (chunkName hemera shard) = true

theorem Intact.read {world : World hemera} {shards : List Shard}
    (intact : world.Intact (shards.map (chunkName hemera))) (deviceNames : List String) :
    world.ReadIntact deviceNames shards :=
  fun deviceName store opened _ member _ _ bytes file =>
    intact deviceName store opened _ (List.mem_map_of_mem member) bytes file

section PutShard

variable {world after : World hemera} {deviceName : String} {shard : Shard}
  {hash : Option Particle}

/-- A shard that is put changes the stores and the files only. -/
theorem putShard_registry (put : putShard deviceName shard world = (.ok hash, after)) :
    after.manager.registry = world.manager.registry := by
  simp only [putShard] at put
  split at put
  · cases put
    rfl
  · simp only [Prod.mk.injEq] at put
    rw [← put.2]

theorem putShard_cases (put : putShard deviceName shard world = (.ok hash, after)) :
    (world.manager.stores[deviceName]? = none ∧ hash = none ∧ after = world) ∨
      ∃ store next : ChunkStore hemera, world.manager.stores[deviceName]? = some store ∧
        hash = some (digest hemera shard) ∧ next.root = store.root ∧
        next.index = store.index.insert (chunkName hemera shard) (shardToBytes shard) ∧
        after.manager.stores = world.manager.stores.insert deviceName next ∧
        (after.tree.node = world.tree.node ∨
          world.tree.has (chunkName hemera shard :: store.root) = false ∧
            after.tree.node = Function.update world.tree.node
              (chunkName hemera shard :: store.root) (some (.file (shardToBytes shard)))) := by
  simp only [putShard] at put
  split at put
  · rename_i missing
    cases put
    exact .inl ⟨missing, rfl, rfl⟩
  · rename_i store found
    rcases called : ChunkStore.put shard (store, world.tree) with ⟨outcome, next, tree⟩
    simp only [called, Prod.mk.injEq] at put
    obtain ⟨returned, rfl⟩ := put
    cases outcome with
    | ok particle =>
        obtain ⟨rfl, root, index, node⟩ := ChunkStore.put_ok called
        cases returned
        exact .inr ⟨store, next, found, rfl, root, index, rfl, node⟩
    | err error => cases returned
    | panic => cases returned

/-- Whatever a store can return after a shard was put was there before or is
the shard's own chunk. -/
theorem putShard_stores (put : putShard deviceName shard world = (.ok hash, after))
    {hex : String} {bytes : List UInt8} (stored : after.Stores hex bytes) :
    world.Stores hex bytes ∨ (hex = chunkName hemera shard ∧ bytes = shardToBytes shard) := by
  rcases putShard_cases put with ⟨-, -, rfl⟩ | ⟨store, next, found, -, root, index, stores, node⟩
  · exact .inl stored
  · obtain ⟨other, kept, foundAfter, held⟩ := stored
    -- The store of any device after the call goes back to one with the same directory.
    have origin : ∃ old : ChunkStore hemera, world.manager.stores[other]? = some old ∧
        kept.root = old.root ∧ (kept.index[hex]? = some bytes → old.index[hex]? = some bytes ∨
          (hex = chunkName hemera shard ∧ bytes = shardToBytes shard)) := by
      rw [stores, Std.ExtTreeMap.getElem?_insert] at foundAfter
      split_ifs at foundAfter with same
      · cases Std.LawfulEqCmp.eq_of_compare same
        cases foundAfter
        refine ⟨store, found, root, ?_⟩
        intro holds
        rw [index, Std.ExtTreeMap.getElem?_insert] at holds
        split_ifs at holds with name
        · cases holds
          exact .inr ⟨(Std.LawfulEqCmp.eq_of_compare name).symm, rfl⟩
        · exact .inl holds
      · exact ⟨kept, foundAfter, rfl, .inl⟩
    obtain ⟨old, oldFound, sameRoot, sameIndex⟩ := origin
    rcases held with holds | file
    · rcases sameIndex holds with old | new
      · exact .inl ⟨other, _, oldFound, .inl old⟩
      · exact .inr new
    · rcases node with same | ⟨-, written⟩
      · rw [same, sameRoot] at file
        exact .inl ⟨other, old, oldFound, .inr file⟩
      · rw [written, Function.update_apply] at file
        split_ifs at file with place
        · cases file
          exact .inr ⟨(List.cons.inj place).1, rfl⟩
        · rw [sameRoot] at file
          exact .inl ⟨other, old, oldFound, .inr file⟩

theorem update_keeps {tree after : FileTree} {place : Location} {node : Option Node}
    (absent : tree.has place = false) (updated : after.node = Function.update tree.node place node)
    {other : Location} {found : Node} (present : tree.node other = some found) :
    after.node other = some found := by
  rw [updated, Function.update_of_ne ?_, present]
  rintro rfl
  rw [FileTree.has, present] at absent
  cases absent

/-- A file of a store's directory was there before, or is the shard's own chunk. -/
theorem putShard_files (put : putShard deviceName shard world = (.ok hash, after)) {hex : String}
    {place : Location} {bytes : List UInt8}
    (file : after.tree.node (hex :: place) = some (.file bytes)) :
    world.tree.node (hex :: place) = some (.file bytes) ∨
      (hex = chunkName hemera shard ∧ bytes = shardToBytes shard) := by
  rcases putShard_cases put with ⟨-, -, rfl⟩ | ⟨store, next, -, -, -, -, -, same | ⟨-, written⟩⟩
  · exact .inl file
  · exact .inl (same ▸ file)
  · rw [written, Function.update_apply] at file
    split_ifs at file with here
    · cases file
      exact .inr ⟨(List.cons.inj here).1, rfl⟩
    · exact .inl file

theorem putShard_node (put : putShard deviceName shard world = (.ok hash, after)) {place : Location}
    {node : Node} (there : world.tree.node place = some node) :
    after.tree.node place = some node := by
  rcases putShard_cases put with ⟨-, -, rfl⟩ | ⟨store, next, -, -, -, -, -, same | ⟨absent, written⟩⟩
  · exact there
  · rw [same, there]
  · exact update_keeps absent written there

/-- The store of any device goes back to one with the same directory. -/
theorem putShard_origin (put : putShard deviceName shard world = (.ok hash, after))
    {other : String} {kept : ChunkStore hemera} (opened : after.manager.stores[other]? = some kept) :
    ∃ old : ChunkStore hemera, world.manager.stores[other]? = some old ∧ kept.root = old.root := by
  rcases putShard_cases put with ⟨-, -, rfl⟩ | ⟨store, next, found, -, root, -, stores, -⟩
  · exact ⟨kept, opened, rfl⟩
  · rw [stores, Std.ExtTreeMap.getElem?_insert] at opened
    split_ifs at opened with same
    · cases Std.LawfulEqCmp.eq_of_compare same
      cases opened
      exact ⟨store, found, root⟩
    · exact ⟨kept, opened, rfl⟩

theorem putShard_mem (put : putShard deviceName shard world = (.ok hash, after)) {other : String}
    (present : other ∈ world.manager.stores) : other ∈ after.manager.stores := by
  rcases putShard_cases put with ⟨-, -, rfl⟩ | ⟨store, next, -, -, -, -, stores, -⟩
  · exact present
  · rw [stores]
    exact Std.ExtTreeMap.mem_insert.mpr (.inr present)

theorem putShard_contains (put : putShard deviceName shard world = (.ok hash, after))
    (other : String) :
    after.manager.stores.contains other = world.manager.stores.contains other := by
  rcases putShard_cases put with ⟨-, -, rfl⟩ | ⟨store, next, found, -, -, -, stores, -⟩
  · rfl
  · have present : world.manager.stores.contains deviceName = true := by
      rw [Std.ExtTreeMap.contains_eq_isSome_getElem?, found]
      rfl
    rw [stores, Std.ExtTreeMap.contains_insert]
    by_cases same : compare deviceName other = .eq
    · cases Std.LawfulEqCmp.eq_of_compare same
      rw [present, Bool.or_true]
    · simp [same]

theorem putShard_keeps (put : putShard deviceName shard world = (.ok hash, after))
    {other hex : String} (held : world.Indexed other hex) : after.Indexed other hex := by
  rcases putShard_cases put with ⟨-, -, rfl⟩ | ⟨store, next, found, -, -, index, stores, -⟩
  · exact held
  · obtain ⟨kept, foundBefore, member⟩ := held
    by_cases same : deviceName = other
    · subst same
      cases Option.some.inj (found.symm.trans foundBefore)
      refine ⟨next, by rw [stores, Std.ExtTreeMap.getElem?_insert_self], ?_⟩
      rw [index]
      exact Std.ExtTreeMap.mem_insert.mpr (.inr member)
    · refine ⟨kept, ?_, member⟩
      rw [stores, Std.ExtTreeMap.getElem?_insert,
        if_neg fun equal => same (Std.LawfulEqCmp.eq_of_compare equal), foundBefore]

/-- What comes into an index is the shard, into that of its device. -/
theorem putShard_adds (put : putShard deviceName shard world = (.ok hash, after))
    {other hex : String} (held : after.Indexed other hex) :
    world.Indexed other hex ∨ deviceName = other ∧ chunkName hemera shard = hex := by
  rcases putShard_cases put with ⟨-, -, rfl⟩ | ⟨store, next, found, -, -, index, stores, -⟩
  · exact .inl held
  · obtain ⟨kept, opened, member⟩ := held
    rw [stores, Std.ExtTreeMap.getElem?_insert] at opened
    split_ifs at opened with same
    · cases Std.LawfulEqCmp.eq_of_compare same
      cases opened
      rw [index] at member
      rcases Std.ExtTreeMap.mem_insert.mp member with named | before
      · exact .inr ⟨rfl, Std.LawfulEqCmp.eq_of_compare named⟩
      · exact .inl ⟨store, found, before⟩
    · exact .inl ⟨kept, opened, member⟩

/-- A device with a store has the shard in its index afterwards. -/
theorem putShard_indexed (put : putShard deviceName shard world = (.ok hash, after))
    (present : deviceName ∈ world.manager.stores) :
    hash = some (digest hemera shard) ∧ after.Indexed deviceName (chunkName hemera shard) := by
  rcases putShard_cases put with ⟨missing, -⟩ | ⟨store, next, -, hashed, -, index, stores, -⟩
  · rw [Std.ExtTreeMap.mem_iff_isSome_getElem?, missing] at present
    cases present
  · refine ⟨hashed, next, by rw [stores, Std.ExtTreeMap.getElem?_insert_self], ?_⟩
    rw [index]
    exact Std.ExtTreeMap.mem_insert_self

end PutShard

section Distribute

/-- Under the name of each of these shards the stores return that shard only. -/
def Genuine (world : World hemera) (shards : List Shard) : Prop :=
  ∀ shard ∈ shards, ∀ bytes, world.Returns (chunkName hemera shard) bytes →
    bytes = shardToBytes shard

/-- The chunks of these shards, and what the stores hold under their names. -/
def atHand (world : World hemera) (shards : List Shard) : Set (List UInt8) :=
  {bytes | ∃ shard ∈ shards,
    bytes = shardToBytes shard ∨ world.Stores (chunkName hemera shard) bytes}

variable {world after : World hemera} {shards : List Shard}

theorem chunkName_inj (printed : hemera.toHex = hexText)
    (free : hemera.CollisionFree (world.atHand shards)) {left right : Shard}
    (leftMember : left ∈ shards) (rightMember : right ∈ shards)
    (same : chunkName hemera left = chunkName hemera right) :
    shardToBytes left = shardToBytes right := by
  rw [chunkName, chunkName, printed] at same
  exact free ⟨left, leftMember, .inl rfl⟩ ⟨right, rightMember, .inl rfl⟩ (hexText_injective same)

/-- The hashes of the shards whose device has a store. -/
def storedHashes (world : World hemera) (deviceNames : List String) (shards : List Shard) :
    List String :=
  (shards.filter fun shard => world.manager.stores.contains (deviceOf deviceNames shard)).map
    (chunkName hemera)

theorem distribute_hashes {deviceNames : List String} {hashes : List String}
    (run : distribute deviceNames shards world = (.ok hashes, after)) :
    hashes = world.storedHashes deviceNames shards ∧
      after.manager.registry = world.manager.registry := by
  induction shards generalizing world hashes with
  | nil =>
      cases run
      exact ⟨rfl, rfl⟩
  | cons shard rest ih =>
      obtain ⟨hash, between, put, continuing⟩ := Action.bind_eq_ok_iff.mp run
      obtain ⟨later, _, storing, returned⟩ := Action.bind_eq_ok_iff.mp continuing
      cases returned
      obtain ⟨rfl, same⟩ := ih storing
      refine ⟨?_, same.trans (putShard_registry put)⟩
      have kept : between.storedHashes deviceNames rest = world.storedHashes deviceNames rest := by
        simp only [storedHashes, putShard_contains put]
      have put : putShard (deviceOf deviceNames shard) shard world = (.ok hash, between) := put
      rw [kept, storedHashes, storedHashes, List.filter_cons]
      rcases putShard_cases put with ⟨missing, rfl, -⟩ | ⟨store, next, found, rfl, -⟩
      · rw [if_neg (by simp [Std.ExtTreeMap.contains_eq_isSome_getElem?, missing])]
        rfl
      · rw [if_pos (by simp [Std.ExtTreeMap.contains_eq_isSome_getElem?, found])]
        rfl

/-- What dealing out a list of shards has done once it succeeds. -/
structure Distributed (deviceNames : List String) (shards : List Shard) (hashes : List String)
    (world after : World hemera) : Prop where
  hashes_eq : hashes = shards.map (chunkName hemera)
  registry_eq : after.manager.registry = world.manager.registry
  stores : ∀ {hex bytes}, after.Stores hex bytes → world.Stores hex bytes ∨
    ∃ shard ∈ shards, hex = chunkName hemera shard ∧ bytes = shardToBytes shard
  files : ∀ {hex place bytes}, after.tree.node (hex :: place) = some (.file bytes) →
    world.tree.node (hex :: place) = some (.file bytes) ∨
      ∃ shard ∈ shards, hex = chunkName hemera shard ∧ bytes = shardToBytes shard
  origin : ∀ {deviceName : String} {kept : ChunkStore hemera},
    after.manager.stores[deviceName]? = some kept →
    ∃ old : ChunkStore hemera, world.manager.stores[deviceName]? = some old ∧ kept.root = old.root
  node : ∀ {place node}, world.tree.node place = some node → after.tree.node place = some node
  contains : ∀ deviceName : String,
    after.manager.stores.contains deviceName = world.manager.stores.contains deviceName
  keeps : ∀ {deviceName hex}, world.Indexed deviceName hex → after.Indexed deviceName hex
  adds : ∀ {deviceName hex}, after.Indexed deviceName hex → world.Indexed deviceName hex ∨
    ∃ shard ∈ shards, deviceOf deviceNames shard = deviceName ∧ chunkName hemera shard = hex
  indexed : ∀ shard ∈ shards, after.Indexed (deviceOf deviceNames shard) (chunkName hemera shard)

theorem deviceOf_mem {deviceNames : List String} (nonempty : deviceNames ≠ []) (shard : Shard) :
    deviceOf deviceNames shard ∈ deviceNames := by
  have positive := List.length_pos_iff.mpr nonempty
  have bound := Nat.mod_lt shard.index positive
  rw [deviceOf, List.getD_eq_getElem _ _ bound]
  exact List.getElem_mem bound

theorem distribute_ok {deviceNames : List String} (nonempty : deviceNames ≠ [])
    (equipped : ∀ name ∈ deviceNames, name ∈ world.manager.stores) {hashes : List String}
    (run : distribute deviceNames shards world = (.ok hashes, after)) :
    Distributed deviceNames shards hashes world after := by
  induction shards generalizing world hashes with
  | nil =>
      cases run
      exact ⟨rfl, rfl, .inl, .inl, fun opened => ⟨_, opened, rfl⟩, id, fun _ => rfl, id, .inl,
        by simp⟩
  | cons shard rest ih =>
      obtain ⟨hash, between, put, run⟩ := Action.bind_eq_ok_iff.mp run
      obtain ⟨later, _, run, returned⟩ := Action.bind_eq_ok_iff.mp run
      cases returned
      have put : putShard (deviceOf deviceNames shard) shard world = (.ok hash, between) := put
      obtain ⟨hashed, here⟩ :=
        putShard_indexed put (equipped _ (deviceOf_mem nonempty shard))
      have tail := ih (fun name member => putShard_mem put (equipped name member)) run
      refine ⟨?_, ?_, ?_, ?_, ?_, ?_, ?_, ?_, ?_, ?_⟩
      · rw [hashed, tail.hashes_eq]
        rfl
      · exact tail.registry_eq.trans (putShard_registry put)
      · intro hex bytes stored
        rcases tail.stores stored with between | ⟨other, member, named⟩
        · rcases putShard_stores put between with before | here
          · exact .inl before
          · exact .inr ⟨shard, by simp, here⟩
        · exact .inr ⟨other, by simp [member], named⟩
      · intro hex place bytes file
        rcases tail.files file with between | ⟨other, member, named⟩
        · rcases putShard_files put between with before | here
          · exact .inl before
          · exact .inr ⟨shard, by simp, here⟩
        · exact .inr ⟨other, by simp [member], named⟩
      · intro deviceName kept opened
        obtain ⟨middle, found, root⟩ := tail.origin opened
        obtain ⟨old, foundOld, rootOld⟩ := putShard_origin put found
        exact ⟨old, foundOld, root.trans rootOld⟩
      · exact fun there => tail.node (putShard_node put there)
      · exact fun other => (tail.contains other).trans (putShard_contains put other)
      · exact fun held => tail.keeps (putShard_keeps put held)
      · intro deviceName hex held
        rcases tail.adds held with between | ⟨other, member, dealt⟩
        · rcases putShard_adds put between with before | here
          · exact .inl before
          · exact .inr ⟨shard, by simp, here⟩
        · exact .inr ⟨other, by simp [member], dealt⟩
      · intro other member
        rcases List.mem_cons.mp member with rfl | later
        · exact tail.keeps here
        · exact tail.indexed other later

/-- What the stores return under the names of the shards that were dealt. -/
theorem Distributed.genuine (printed : hemera.toHex = hexText)
    (free : hemera.CollisionFree (world.atHand shards)) {deviceNames hashes : List String}
    (distributed : Distributed deviceNames shards hashes world after)
    (intact : world.ReadIntact deviceNames shards) : after.Genuine shards := by
  intro shard member bytes returned
  -- what has the name for its hash is the shard, since nothing at hand collides
  have matching (named : hemera.toHex (hemera.hash bytes) = chunkName hemera shard)
      (held : world.Stores (chunkName hemera shard) bytes) : bytes = shardToBytes shard := by
    rw [chunkName, printed] at named
    exact free ⟨shard, member, .inr held⟩ ⟨shard, member, .inl rfl⟩ (hexText_injective named)
  have dealt : (∃ other ∈ shards, chunkName hemera shard = chunkName hemera other ∧
      bytes = shardToBytes other) → bytes = shardToBytes shard := by
    rintro ⟨other, otherMember, named, rfl⟩
    exact (chunkName_inj printed free member otherMember named).symm
  rcases returned with ⟨deviceName, kept, opened, indexed | ⟨unindexed, file⟩⟩
  · rcases distributed.stores ⟨deviceName, kept, opened, .inl indexed⟩ with before | new
    · exact matching (kept.addressed indexed) before
    · exact dealt new
  · obtain ⟨old, found, root⟩ := distributed.origin opened
    have skipped {other : String} (held : after.Indexed other (chunkName hemera shard)) :
        other ≠ deviceName := by
      rintro rfl
      obtain ⟨same, foundSame, indexed⟩ := held
      cases opened.symm.trans foundSame
      exact unindexed indexed
    rcases distributed.files file with before | new
    · rw [root] at before
      refine matching (beq_iff_eq.mp (intact deviceName old found shard member ?_ ?_ bytes before))
        ⟨deviceName, old, found, .inr before⟩
      · exact fun indexed => skipped (distributed.keeps ⟨old, found, indexed⟩) rfl
      · exact fun other otherMember same =>
          skipped (same ▸ distributed.indexed other otherMember)
    · exact dealt new

end Distribute

section GetFile

variable {world : World hemera} {stores : Walk}

theorem returns_of_get {source : String} {hash : Particle} {bytes : List UInt8}
    (read : (world.manager.stores[source]?.bind fun store => (store.get world.tree hash).toOption) =
      some bytes) : world.Returns (hemera.toHex hash) bytes := by
  obtain ⟨store, opened, got⟩ := Option.bind_eq_some_iff.mp read
  refine ⟨source, store, opened, ChunkStore.get_ok ?_⟩
  cases called : store.get world.tree hash with
  | ok value =>
      rw [called] at got
      cases got
      rfl
  | error fault =>
      rw [called] at got
      cases got

theorem findShard_some {index : Nat} {hash : Particle} {shard : Shard}
    (found : world.findShard stores index hash = some shard) :
    ∃ bytes, world.Returns (hemera.toHex hash) bytes ∧ shard = bytesToShard index bytes := by
  obtain ⟨deviceName, -, read⟩ := List.exists_of_findSome?_eq_some found
  obtain ⟨store, opened, read⟩ := Option.bind_eq_some_iff.mp read
  obtain ⟨bytes, got, rfl⟩ := Option.map_eq_some_iff.mp read
  exact ⟨bytes, returns_of_get (Option.bind_eq_some_iff.mpr ⟨store, opened, got⟩), rfl⟩

theorem findShard_isSome {deviceName : String} {hash : Particle}
    (held : world.Indexed deviceName (hemera.toHex hash)) (index : Nat) :
    (world.findShard stores index hash).isSome = true := by
  obtain ⟨store, opened, member⟩ := held
  obtain ⟨bytes, found⟩ := Option.isSome_iff_exists.mp
    (Std.ExtTreeMap.mem_iff_isSome_getElem?.mp member)
  have walked : deviceName ∈ stores.order world.manager.stores.keys := by
    rw [(stores.perm _).mem_iff, Std.ExtTreeMap.mem_keys, Std.ExtTreeMap.mem_iff_isSome_getElem?,
      opened]
    rfl
  rw [findShard, List.findSome?_isSome_iff]
  refine ⟨deviceName, walked, ?_⟩
  rw [opened, Option.bind_some, ChunkStore.get_indexed found]
  rfl

/-- A walk that starts at a store without the chunk in its index reads the file. -/
theorem findShard_startingAt {holder : String} {store : ChunkStore hemera} {hash : Particle}
    {bytes : List UInt8} (opened : world.manager.stores[holder]? = some store)
    (unindexed : hemera.toHex hash ∉ store.index)
    (file : world.tree.node (hemera.toHex hash :: store.root) = some (.file bytes)) (index : Nat) :
    world.findShard (.startingAt holder) index hash = some (bytesToShard index bytes) := by
  have walked : holder ∈ world.manager.stores.keys := by
    rw [Std.ExtTreeMap.mem_keys, Std.ExtTreeMap.mem_iff_isSome_getElem?, opened]
    rfl
  have read : store.get world.tree hash = .ok bytes := by
    have absent : store.index[hemera.toHex hash]? = none := by
      rw [Std.ExtTreeMap.mem_iff_isSome_getElem?] at unindexed
      simpa using unindexed
    simp only [ChunkStore.get, absent, FileTree.read, file]
  rw [findShard, Walk.startingAt]
  simp only [if_pos walked, List.findSome?_cons, opened, Option.bind_some, read, Except.toOption,
    Option.map_some]

/-- Where one of the files was altered, some walk reads what is in it. -/
theorem Distributed.misread {after : World hemera} {deviceNames : List String} {shards : List Shard}
    {hashes : List String} (distributed : Distributed deviceNames shards hashes world after)
    (altered : ¬ world.ReadIntact deviceNames shards) :
    ∃ shard ∈ shards, ∃ walk bytes, verifyChunk hemera bytes (chunkName hemera shard) = false ∧
      ∀ index, after.findShard walk index (digest hemera shard) =
        some (bytesToShard index bytes) := by
  simp only [ReadIntact, not_forall, Bool.not_eq_true] at altered
  obtain ⟨deviceName, store, opened, shard, member, unindexed, elsewhere, bytes, file, wrong⟩ :=
    altered
  have there := distributed.contains deviceName
  rw [Std.ExtTreeMap.contains_eq_isSome_getElem?, Std.ExtTreeMap.contains_eq_isSome_getElem?,
    opened, Option.isSome_some] at there
  obtain ⟨kept, openedAfter⟩ := Option.isSome_iff_exists.mp there
  obtain ⟨old, found, root⟩ := distributed.origin openedAfter
  cases opened.symm.trans found
  refine ⟨shard, member, .startingAt deviceName, bytes, wrong,
    findShard_startingAt openedAfter ?_ (root ▸ distributed.node file)⟩
  intro indexed
  rcases distributed.adds ⟨kept, openedAfter, indexed⟩ with
    ⟨before, foundBefore, held⟩ | ⟨other, otherMember, dealt, named⟩
  · cases opened.symm.trans foundBefore
    exact unindexed held
  · exact elsewhere other otherMember named dealt

/-- The shards of the list that are found in some store. -/
def available (world : World hemera) (stores : Walk) (shards : List Shard) : List Shard :=
  shards.filter fun shard =>
    (world.findShard stores shard.index (digest hemera shard)).isSome

theorem collect_eq (printed : hemera.toHex = hexText) {shards : List Shard}
    (genuine : world.Genuine shards) {start : Nat}
    (indices : shards.map Shard.index = List.range' start shards.length) :
    world.collect stores ((shards.map (chunkName hemera)).zipIdx start) =
      .ok (world.available stores shards) := by
  induction shards generalizing start with
  | nil => rfl
  | cons shard rest ih =>
      simp only [List.map_cons, List.length_cons, List.range'_succ, List.cons.injEq] at indices
      obtain ⟨rfl, indices⟩ := indices
      have tail := ih (fun other member => genuine other (by simp [member])) indices
      have parsed : hexToHash (chunkName hemera shard) = .ok (digest hemera shard) := by
        rw [chunkName, printed, hexToHash_hexText]
      have here : (world.findShard stores shard.index (digest hemera shard)).toList =
          world.available stores [shard] := by
        cases found : world.findShard stores shard.index (digest hemera shard) with
        | none => simp [available, found]
        | some other =>
            obtain ⟨bytes, stored, rfl⟩ := findShard_some found
            cases genuine shard (by simp) bytes stored
            simp [available, found]
      rw [List.map_cons, List.zipIdx_cons, collect, parsed, tail]
      simp only [bind, Except.bind, pure, Except.pure, here, available, ← List.filter_append,
        List.singleton_append]

/-- A file whose shards the stores hold unaltered is read back as soon as `k` of
them are found. -/
theorem getFile_ok {nebu : Nebu} (printed : hemera.toHex = hexText) {data : List UInt8} {k n : Nat}
    {shards : List Shard} (codeword : Codeword nebu data k n shards)
    (genuine : world.Genuine shards) {fileName : String} {entry : FileEntry}
    (registered : world.manager.registry.get fileName = some entry) (threshold : entry.k = k)
    (size : entry.n = n) (length : entry.originalLen = data.length)
    (hashes : entry.shardHashes = shards.map (chunkName hemera))
    (enough : k ≤ (world.available stores shards).length) :
    world.getFile nebu stores fileName = .ok data := by
  have indices : shards.map Shard.index = List.range' 0 shards.length := by
    rw [codeword.indices, codeword.length, List.range_eq_range']
  have decoded := codeword.decodes (world.available stores shards)
    (fun shard member => (List.mem_filter.mp member).1)
    ((codeword.indices ▸ List.nodup_range).sublist (List.filter_sublist.map _)) enough
  simp only [getFile, registered, hashes, collect_eq printed genuine indices, threshold, size, length,
    Outcome.ofExcept, Outcome.ok_bind, if_neg enough.not_gt, decoded]

end GetFile

section PutFile

variable {nebu : Nebu} {merkle : HemeraTree} {now : UInt64} {diskName fileName : String}
  {data : List UInt8} {world after : World hemera} {commitment : DasCommitment}

/-- The shards that `put_file` makes of the data for a disk. -/
def shardsOf (world : World hemera) (nebu : Nebu) (diskName : String) (data : List UInt8) :
    List Shard :=
  let devices := (world.manager.deviceNames diskName).length
  (world.manager.disks[diskName]?.bind fun config =>
    (checkedSub devices (config.redundancy.failures devices)).bind fun k =>
      encode nebu data k (nextPowerOfTwo devices)).getD []

theorem putFile_ok
    (stored : putFile nebu merkle now diskName fileName data world = (.ok commitment, after)) :
    ∃ config k hashes between, world.manager.disks[diskName]? = some config ∧
      world.manager.deviceNames diskName ≠ [] ∧
      (world.manager.deviceNames diskName).length =
        k + config.redundancy.failures (world.manager.deviceNames diskName).length ∧
      encode nebu data k (nextPowerOfTwo (world.manager.deviceNames diskName).length) =
        some (world.shardsOf nebu diskName data) ∧
      distribute (world.manager.deviceNames diskName) (world.shardsOf nebu diskName data) world =
        (.ok hashes, between) ∧
      commitment = Das.commit merkle (world.shardsOf nebu diskName data) k data.length ∧
      after = between.register (fileEntry merkle hemera fileName data k
        (nextPowerOfTwo (world.manager.deviceNames diskName).length) hashes now commitment 1) := by
  rw [putFile, Action.get_bind] at stored
  cases found : world.manager.disks[diskName]? with
  | none =>
      rw [found] at stored
      cases stored
  | some config =>
      simp only [found] at stored
      split_ifs at stored with none_attached
      · cases stored
      · obtain ⟨k, counted, encoding⟩ := Action.lift_bind_eq_ok_iff.mp stored
        obtain ⟨shards, coded, dealing⟩ := Action.lift_bind_eq_ok_iff.mp encoding
        obtain ⟨hashes, between, distributed, registered⟩ := Action.bind_eq_ok_iff.mp dealing
        have counted := Outcome.expect_eq_ok.mp counted
        have coded := Outcome.expect_eq_ok.mp coded
        have made : world.shardsOf nebu diskName data = shards := by
          simp [shardsOf, found, counted, coded]
        rw [Action.modify_bind, Action.pure_apply, Prod.mk.injEq, Outcome.ok.injEq] at registered
        obtain ⟨rfl, rfl⟩ := registered
        rw [made]
        exact ⟨config, k, hashes, between, rfl, by simpa using none_attached,
          checkedSub_eq_some counted, coded, distributed, rfl, rfl⟩

/-- The file is registered and each of its shards is in the index of its device. -/
structure Stored (world : World hemera) (nebu : Nebu) (deviceNames : List String)
    (fileName : String) (data : List UInt8) (k n : Nat) (shards : List Shard) : Prop where
  codeword : Codeword nebu data k n shards
  registered : ∃ entry, world.manager.registry.get fileName = some entry ∧ entry.k = k ∧
    entry.n = n ∧ entry.originalLen = data.length ∧
    entry.shardHashes = shards.map (chunkName hemera)
  genuine : world.Genuine shards
  indexed : ∀ shard ∈ shards, world.Indexed (deviceOf deviceNames shard) (chunkName hemera shard)

theorem putFile_stored (lawful : nebu.Lawful) (printed : hemera.toHex = hexText)
    (attached : ∀ name ∈ world.manager.deviceNames diskName, name ∈ world.manager.stores)
    (bound : (world.manager.deviceNames diskName).length ≤ 2 ^ 32)
    (fresh : world.manager.registry.getRaw fileName = none)
    (stored : putFile nebu merkle now diskName fileName data world = (.ok commitment, after))
    (free : hemera.CollisionFree (world.atHand (world.shardsOf nebu diskName data)))
    (intact : world.ReadIntact (world.manager.deviceNames diskName)
      (world.shardsOf nebu diskName data)) :
    ∃ config k, world.manager.disks[diskName]? = some config ∧
      (world.manager.deviceNames diskName).length =
        k + config.redundancy.failures (world.manager.deviceNames diskName).length ∧
      after.Stored nebu (world.manager.deviceNames diskName) fileName data k
        (nextPowerOfTwo (world.manager.deviceNames diskName).length)
        (world.shardsOf nebu diskName data) := by
  obtain ⟨config, k, hashes, between, disk, nonempty, counted, coded, dealt, -, rfl⟩ :=
    putFile_ok stored
  have distributed := distribute_ok nonempty attached dealt
  have genuine : between.Genuine (world.shardsOf nebu diskName data) :=
    distributed.genuine printed free intact
  have absent : between.manager.registry.getRaw (fileEntry merkle hemera fileName data k
      (nextPowerOfTwo (world.manager.deviceNames diskName).length) hashes now commitment 1).name =
      none := distributed.registry_eq ▸ fresh
  exact ⟨config, k, disk, counted, encode_codeword lawful (nextPowerOfTwo_le bound) coded,
    ⟨_, GSet.get_insert_of_absent absent rfl, rfl, rfl, rfl, distributed.hashes_eq⟩, genuine,
    distributed.indexed⟩

end PutFile

section Lose

/-- The world without the stores of these devices. -/
def lose (world : World hemera) (lost : List String) : World hemera :=
  { world with
    manager.stores := lost.foldl (fun stores name => stores.erase name) world.manager.stores }

theorem lose_stores (world : World hemera) (lost : List String) (name : String) :
    (world.lose lost).manager.stores[name]? =
      if name ∈ lost then none else world.manager.stores[name]? := by
  simp only [lose]
  generalize world.manager.stores = stores
  induction lost generalizing stores with
  | nil => simp
  | cons first rest ih =>
      rw [List.foldl_cons, ih, Std.ExtTreeMap.getElem?_erase]
      by_cases member : name ∈ rest
      · simp [member]
      · by_cases same : name = first
        · simp [same]
        · have differs : compare first name ≠ .eq := fun equal =>
            same (Std.LawfulEqCmp.eq_of_compare equal).symm
          simp [member, same, differs]

variable {world : World hemera} {lost : List String}

theorem Genuine.lose {shards : List Shard} (genuine : world.Genuine shards) :
    (world.lose lost).Genuine shards := by
  rintro shard member bytes ⟨deviceName, store, found, held⟩
  rw [lose_stores] at found
  split_ifs at found
  exact genuine shard member bytes ⟨deviceName, store, found, held⟩

theorem Indexed.lose {deviceName hex : String} (held : world.Indexed deviceName hex)
    (kept : deviceName ∉ lost) : (world.lose lost).Indexed deviceName hex := by
  obtain ⟨store, found, member⟩ := held
  exact ⟨store, by rw [lose_stores, if_neg kept, found], member⟩

/-- Of distinct names, all but as many as are lost remain. -/
theorem length_le_filter_add {names : List String} (distinct : names.Nodup) (lost : List String) :
    names.length ≤ (names.filter (· ∉ lost)).length + lost.length := by
  have gone : (names.filter (· ∈ lost)).length ≤ lost.length := by
    refine (List.subperm_of_subset (distinct.filter _) ?_).length_le
    intro name member
    simpa using (List.mem_filter.mp member).2
  have split := List.length_eq_length_filter_add (l := names) (· ∉ lost)
  simp only [decide_not, Bool.not_not] at split ⊢
  omega

variable {nebu : Nebu} {deviceNames : List String} {fileName : String} {data : List UInt8}
  {k n : Nat} {shards : List Shard}

theorem Stored.isSome_findShard {stores : Walk}
    (held : world.Stored nebu deviceNames fileName data k n shards)
    {shard : Shard} (member : shard ∈ shards) (kept : deviceOf deviceNames shard ∉ lost) :
    ((world.lose lost).findShard stores shard.index (digest hemera shard)).isSome = true :=
  findShard_isSome ((held.indexed shard member).lose kept) shard.index

theorem Stored.getFile (held : world.Stored nebu deviceNames fileName data k n shards)
    (printed : hemera.toHex = hexText) {stores : Walk}
    (enough : k ≤ ((world.lose lost).available stores shards).length) :
    (world.lose lost).getFile nebu stores fileName = .ok data := by
  obtain ⟨entry, registered, threshold, size, length, hashes⟩ := held.registered
  exact getFile_ok printed held.codeword held.genuine.lose registered threshold size length hashes
    enough

/-- Shard `i` of the first round lies on device `i`, so each device that is left
contributes a shard of its own. -/
theorem Stored.length_available (held : world.Stored nebu deviceNames fileName data k n shards)
    (lost : List String) (covers : deviceNames.length ≤ n) (stores : Walk) :
    (deviceNames.filter (· ∉ lost)).length ≤
      ((world.lose lost).available stores shards).length := by
  have firstRound : (shards.take deviceNames.length).map (deviceOf deviceNames) = deviceNames := by
    have indices : (shards.take deviceNames.length).map Shard.index =
        List.range deviceNames.length := by
      rw [List.map_take, held.codeword.indices, List.take_range, Nat.min_eq_left covers]
    have devices : (shards.take deviceNames.length).map (deviceOf deviceNames) =
        ((shards.take deviceNames.length).map Shard.index).map fun index =>
          deviceNames.getD (index % deviceNames.length) "" := by
      rw [List.map_map]
      rfl
    rw [devices, indices]
    apply List.ext_getElem
    · simp
    · intro position bound here
      simp [Nat.mod_eq_of_lt here, here]
  have survivors : deviceNames.filter (· ∉ lost) =
      ((shards.take deviceNames.length).filter fun shard => deviceOf deviceNames shard ∉ lost).map
        (deviceOf deviceNames) := by
    conv_lhs => rw [← firstRound]
    rw [List.filter_map]
    rfl
  rw [survivors, List.length_map]
  refine ((List.take_sublist _ _).filter _).length_le.trans ?_
  rw [available, ← List.countP_eq_length_filter, ← List.countP_eq_length_filter]
  exact List.countP_mono_left fun shard member kept =>
    held.isSome_findShard member (by simpa using kept)

end Lose

/-- A file put on a disk with distinct devices is read back after the loss of as
many of their stores as the disk tolerates, in whatever order the remaining
stores are searched, when nothing that is read under the name of one of its shards
was altered.  What was altered is read on some search. -/
theorem recovers_after_losses (nebu : Nebu) (lawful : nebu.Lawful) (merkle : HemeraTree)
    (printed : hemera.toHex = hexText) (now : UInt64) (diskName fileName : String)
    (data : List UInt8) (world after : World hemera) (config : DiskConfig)
    (commitment : DasCommitment) (disk : world.manager.disks[diskName]? = some config)
    (distinct : (world.manager.deviceNames diskName).Nodup)
    (attached : ∀ name ∈ world.manager.deviceNames diskName, name ∈ world.manager.stores)
    (bound : (world.manager.deviceNames diskName).length ≤ 2 ^ 32)
    (fresh : world.manager.registry.getRaw fileName = none)
    (stored : putFile nebu merkle now diskName fileName data world = (.ok commitment, after))
    (free : hemera.CollisionFree (world.atHand (world.shardsOf nebu diskName data))) :
    (world.ReadIntact (world.manager.deviceNames diskName) (world.shardsOf nebu diskName data) →
      ∀ (lost : List String) (stores : Walk), lost.length ≤
          config.redundancy.failures (world.manager.deviceNames diskName).length →
        (after.lose lost).getFile nebu stores fileName = .ok data) ∧
    (¬ world.ReadIntact (world.manager.deviceNames diskName) (world.shardsOf nebu diskName data) →
      ∃ shard ∈ world.shardsOf nebu diskName data, ∃ walk bytes,
        verifyChunk hemera bytes (chunkName hemera shard) = false ∧ ∀ index,
          after.findShard walk index (digest hemera shard) = some (bytesToShard index bytes)) := by
  constructor
  · intro intact lost stores few
    obtain ⟨_, k, found, counted, held⟩ :=
      putFile_stored lawful printed attached bound fresh stored free intact
    cases Option.some.inj (disk.symm.trans found)
    apply held.getFile printed
    have survivors := length_le_filter_add distinct lost
    have reachable := held.length_available lost (le_nextPowerOfTwo _) stores
    omega
  · intro altered
    obtain ⟨_, _, hashes, between, -, nonempty, -, -, dealt, -, rfl⟩ := putFile_ok stored
    exact (distribute_ok nonempty attached dealt).misread altered

section Unused

/-- Nothing is stored yet under the names of these shards. -/
def Unused (world : World hemera) (shards : List Shard) : Prop :=
  ∀ opened ∈ world.manager.stores.toList, ∀ shard ∈ shards,
    opened.2.index[chunkName hemera shard]? = none ∧
      world.tree.node (chunkName hemera shard :: opened.2.root) = none

instance (world : World hemera) (shards : List Shard) : Decidable (world.Unused shards) :=
  inferInstanceAs (Decidable (∀ _ ∈ _, ∀ _ ∈ _, _ ∧ _))

variable {world : World hemera} {shards : List Shard}

theorem Unused.not_stores (unused : world.Unused shards) {shard : Shard} (member : shard ∈ shards)
    (bytes : List UInt8) : ¬ world.Stores (chunkName hemera shard) bytes := by
  rintro ⟨deviceName, store, found, held⟩
  obtain ⟨index, node⟩ := unused (deviceName, store)
    (Std.ExtTreeMap.mem_toList_iff_getElem?_eq_some.mpr found) shard member
  rcases held with held | held
  · simp [index] at held
  · simp [node] at held

theorem Unused.intact (unused : world.Unused shards) :
    world.Intact (shards.map (chunkName hemera)) := by
  intro deviceName store found hex member bytes file
  obtain ⟨shard, shardMember, rfl⟩ := List.mem_map.mp member
  exact absurd ⟨deviceName, store, found, .inr file⟩ (unused.not_stores shardMember bytes)

/-- Copies of one shard have one chunk, so there is nothing to collide with. -/
theorem Unused.collisionFree (unused : world.Unused shards) {chunk : List UInt8}
    (copies : ∀ shard ∈ shards, shardToBytes shard = chunk) :
    hemera.CollisionFree (world.atHand shards) := by
  have only : ∀ bytes ∈ world.atHand shards, bytes = chunk := by
    rintro bytes ⟨shard, member, rfl | stored⟩
    · exact copies shard member
    · exact absurd stored (unused.not_stores member bytes)
  intro left leftMember right rightMember _
  rw [only left leftMember, only right rightMember]

end Unused

def bareWorld : World Hemera.truncating where
  manager := .empty []
  tree := .bare fun _ => none

/-- Two devices are attached to a disk that tolerates the loss of one. -/
def twoDevices : World Hemera.truncating :=
  ((do
    createDisk { name := "work", redundancy := .tolerate 1, shardCopies := 1 }
    attach "laptop" "work" 0
    attach "phone" "work" 0 : Action _ String Unit) bareWorld).2

theorem recovers_after_losses_of_one :
    (putFile naiveNebu .truncating 5 "work" "notes" [7] twoDevices).1.void = .ok () ∧
      ((putFile naiveNebu .truncating 5 "work" "notes" [7] twoDevices).2.lose ["laptop"]).getFile
        naiveNebu .sorted "notes" = .ok [7] := by
  have returned :
      (putFile naiveNebu .truncating 5 "work" "notes" [7] twoDevices).1.void = .ok () := by
    rw [naiveNebu_eq]
    decide +kernel
  have unused : twoDevices.Unused (twoDevices.shardsOf naiveNebu "work" [7]) := by
    rw [naiveNebu_eq]
    decide +kernel
  have copies : ∀ shard ∈ twoDevices.shardsOf naiveNebu "work" [7],
      shardToBytes shard = shardToBytes ⟨0, [7]⟩ := by
    rw [naiveNebu_eq]
    decide +kernel
  obtain ⟨commitment, stored⟩ := Outcome.void_eq_ok.mp returned
  refine ⟨returned, ?_⟩
  exact (recovers_after_losses naiveNebu naiveNebu_lawful .truncating rfl 5 "work" "notes" [7]
    twoDevices _ { name := "work", redundancy := .tolerate 1, shardCopies := 1 } commitment
    (by decide +kernel) (by decide +kernel) (by decide +kernel) (by decide +kernel)
    (by decide +kernel) (Action.eq_of_fst_ok stored) (unused.collisionFree copies)).1
    (unused.intact.read _) ["laptop"] .sorted (by decide +kernel)

/-- The device `card` of disk `a` is full: a `put_file` there fails and leaves an
empty file under the name of the chunk.  The device `ssd` is then attached to
disk `b`. -/
def tornChunk : Action (World Hemera.truncating) String Bool := do
  createDisk { name := "a", redundancy := .tolerate 0, shardCopies := 1 }
  attach "card" "a" 0
  let stored ← Action.attempt (putFile naiveNebu .truncating 5 "a" "first" [7])
  createDisk { name := "b", redundancy := .tolerate 0, shardCopies := 1 }
  attach "ssd" "b" 0
  return stored.isSome

def fullCard : World Hemera.truncating where
  manager := .empty []
  tree := .bare fun place => if place.tail = ["card"] then some (.full 0) else none

/-- The torn chunk on a device of another disk is read in place of the stored
one, and `get_file` returns an empty file. -/
theorem torn_chunk_is_read :
    let world := (tornChunk fullCard).2
    let stored := putFile naiveNebu .truncating 6 "b" "second" [7] world
    (tornChunk fullCard).1 = .ok false ∧
      world.manager.disks["b"]? =
        some { name := "b", redundancy := .tolerate 0, shardCopies := 1 } ∧
      world.manager.deviceNames "b" = ["ssd"] ∧ "ssd" ∈ world.manager.stores ∧
      world.manager.registry.getRaw "second" = none ∧ stored.1.void = .ok () ∧
      (stored.2.lose []).getFile naiveNebu .sorted "second" = .ok [] := by
  unfold tornChunk
  rw [naiveNebu_eq]
  decide +kernel

end World

end Foculus.VDisk

import Foculus.Store.ChunkStore
import Foculus.Store.Das
import Foculus.Store.Registry

namespace Foculus.VDisk

open Data Erasure Store

/-! # The virtual disk manager (`src/vdisk.rs`)

A call acts on the manager together with the file system its stores live on.
The clock is an argument, and so is the order in which a `HashMap` is walked.
Where the path of a directory leads is fixed when the directory is opened: the
manager never removes one.
-/

/-- The order in which a walk over a hash map visits its keys. -/
structure Walk where
  order : List String → List String
  perm : ∀ keys, (order keys).Perm keys

def Walk.sorted : Walk where
  order keys := keys
  perm _ := .refl _

inductive Redundancy where
  | tolerate (failures : Nat)
  | max
deriving DecidableEq

structure DiskConfig where
  name : String
  redundancy : Redundancy
  shardCopies : Nat
deriving DecidableEq

structure DeviceAttachment where
  deviceName : String
  diskName : String
  capacity : UInt64

structure VDiskManager (hemera : Hemera) where
  disks : Std.ExtTreeMap String DiskConfig
  attachments : List DeviceAttachment
  stores : Std.ExtTreeMap String (ChunkStore hemera)
  registry : GSet
  baseDir : Location

structure World (hemera : Hemera) where
  manager : VDiskManager hemera
  tree : FileTree

section Hex

/-- `char::to_digit(16)`. -/
def hexDigit (digit : Char) : Option Nat :=
  if '0' ≤ digit ∧ digit ≤ '9' then some (digit.toNat - '0'.toNat)
  else if 'a' ≤ digit ∧ digit ≤ 'f' then some (digit.toNat - 'a'.toNat + 10)
  else if 'A' ≤ digit ∧ digit ≤ 'F' then some (digit.toNat - 'A'.toNat + 10)
  else none

/-- `u8::from_str_radix` on two characters; a sign may stand in place of the first digit. -/
def hexByte (high low : Char) : Option UInt8 :=
  if high = '+' then (hexDigit low).map UInt8.ofNat
  else (hexDigit high).bind fun high => (hexDigit low).map fun low => UInt8.ofNat (16 * high + low)

def hexBytes : List Char → Option (List UInt8)
  | high :: low :: rest =>
      (hexByte high low).bind fun byte => (hexBytes rest).map (byte :: ·)
  | _ => some []

-- An ASCII text has as many bytes as characters.
def hexToHash (hex : String) : Except String Particle :=
  if hex.toList.length ≠ 64 ∨ ¬ hex.toList.all (·.toNat < 128) then
    .error "invalid hash hex length"
  else match hexBytes hex.toList with
    | some bytes => .ok (Particle.padded bytes)
    | none => .error "invalid digit found in string"

end Hex

/-- The device failures a disk is meant to survive. -/
def Redundancy.failures : Redundancy → Nat → Nat
  | .max, devices => devices - 1
  | .tolerate failures, _ => failures

/-- `none` is the overflow of the subtraction. -/
def checkedSub (left right : Nat) : Option Nat := if right ≤ left then some (left - right) else none

/-- `usize::next_power_of_two`. -/
def nextPowerOfTwo (n : Nat) : Nat := if n ≤ 1 then 1 else 2 ^ ((n - 1).log2 + 1)

namespace VDiskManager

variable {hemera : Hemera}

def empty (baseDir : Location) : VDiskManager hemera where
  disks := ∅
  attachments := []
  stores := ∅
  registry := .new
  baseDir := baseDir

def new (place : Location) (path : String) : Action FileTree Fault (VDiskManager hemera) := do
  let baseDir ← FileTree.createDirAll place path
  return empty baseDir

def deviceNames (manager : VDiskManager hemera) (diskName : String) : List String :=
  (manager.attachments.filter (·.diskName == diskName)).map DeviceAttachment.deviceName

/-- The entries a walk over the registry yields. -/
def entries (manager : VDiskManager hemera) (files : Walk) : List FileEntry :=
  (files.order manager.registry.files.keys).filterMap (manager.registry.files[·]?)

end VDiskManager

namespace World

variable {hemera : Hemera}

def createDisk (config : DiskConfig) : Action (World hemera) String Unit := do
  let world ← Action.get
  let name := config.name
  if world.manager.disks.contains name then Action.fail s!"disk '{name}' already exists"
  else Action.modify fun world =>
    { world with manager.disks := world.manager.disks.insert name config }

/-- The attachment is recorded before the store is opened. -/
def attach (deviceName diskName : String) (capacity : UInt64) :
    Action (World hemera) String Unit := fun world =>
  if world.manager.disks.contains diskName then
    let attachments := world.manager.attachments ++ [{ deviceName, diskName, capacity }]
    if world.manager.stores.contains deviceName then
      (.ok (), { world with manager.attachments := attachments })
    else match ChunkStore.new world.manager.baseDir deviceName capacity world.tree with
      | (.ok store, tree) =>
          (.ok (), { manager := { world.manager with
            attachments, stores := world.manager.stores.insert deviceName store }, tree })
      | (.err fault, tree) =>
          (.err fault.text, { manager := { world.manager with attachments }, tree })
      | (.panic, tree) => (.panic, { manager := { world.manager with attachments }, tree })
  else (.err s!"disk '{diskName}' does not exist", world)

/-- `put` on the store of a device; a device without a store is passed over. -/
def putShard (deviceName : String) (shard : Shard) :
    Action (World hemera) String (Option Particle) := fun world =>
  match world.manager.stores[deviceName]? with
  | none => (.ok none, world)
  | some store =>
      let (outcome, store, tree) := ChunkStore.put shard (store, world.tree)
      (some <$> outcome,
        { manager := { world.manager with
          stores := world.manager.stores.insert deviceName store }, tree })

/-- The shards go to the devices in turn; the hashes of those that were stored. -/
def distribute (deviceNames : List String) :
    List Shard → Action (World hemera) String (List String)
  | [] => pure []
  | shard :: rest => do
      let deviceName := deviceNames.getD (shard.index % deviceNames.length) ""
      let hash ← putShard deviceName shard
      let hashes ← distribute deviceNames rest
      return hash.toList.map hemera.toHex ++ hashes

def fileEntry (merkle : HemeraTree) (hemera : Hemera) (fileName : String) (data : List UInt8)
    (k n : Nat) (shardHashes : List String) (timestamp : UInt64) (commitment : DasCommitment)
    (shardCopies : Nat) : FileEntry where
  name := fileName
  originalLen := data.length
  k := k
  n := n
  shardHashes := shardHashes
  timestamp := timestamp
  entryHash := FileEntry.computeHash hemera fileName shardHashes timestamp "vdisk"
  deviceId := "vdisk"
  dasRoot := merkle.debug commitment.root
  shardCopies := shardCopies
  deleted := false

def register (world : World hemera) (entry : FileEntry) : World hemera :=
  { world with manager.registry := world.manager.registry.insert entry }

def putFile (nebu : Nebu) (merkle : HemeraTree) (now : UInt64) (diskName fileName : String)
    (data : List UInt8) : Action (World hemera) String DasCommitment := do
  let world ← Action.get
  match world.manager.disks[diskName]? with
  | none => Action.fail s!"disk '{diskName}' not found"
  | some config => do
      let deviceNames := world.manager.deviceNames diskName
      let devices := deviceNames.length
      if devices = 0 then Action.fail "no devices attached to disk"
      else do
        let k ← Action.lift (Outcome.expect (checkedSub devices (config.redundancy.failures devices)))
        let n := nextPowerOfTwo devices
        let shards ← Action.lift (Outcome.expect (encode nebu data k n))
        let commitment := Das.commit merkle shards k data.length
        let shardHashes ← distribute deviceNames shards
        Action.modify fun world =>
          world.register (fileEntry merkle hemera fileName data k n shardHashes now commitment 1)
        return commitment

/-- The shard read from the first store on the walk that has its chunk; the
bytes are not checked against the hash. -/
def findShard (world : World hemera) (stores : Walk) (index : Nat) (hash : Particle) :
    Option Shard :=
  (stores.order world.manager.stores.keys).findSome? fun deviceName =>
    world.manager.stores[deviceName]?.bind fun store =>
      (store.get world.tree hash).toOption.map (bytesToShard index)

def collect (world : World hemera) (stores : Walk) :
    List (String × Nat) → Except String (List Shard)
  | [] => .ok []
  | (hashHex, index) :: rest => do
      let hash ← hexToHash hashHex
      let shards ← collect world stores rest
      return (world.findShard stores index hash).toList ++ shards

def getFile (world : World hemera) (nebu : Nebu) (stores : Walk) (fileName : String) :
    Outcome String (List UInt8) :=
  match world.manager.registry.get fileName with
  | none => .err s!"file '{fileName}' not found"
  | some entry => do
      let availableShards ← Outcome.ofExcept (world.collect stores entry.shardHashes.zipIdx)
      let count := availableShards.length
      let k := entry.k
      if count < k then .err s!"only {count} of {k} required shards available"
      else decode nebu availableShards k entry.n entry.originalLen

/-- One file of `rechunk`: whether it was rewritten.  A file that cannot be read is
skipped, and the new entry is stamped later than the one it rewrites. -/
def rechunkFile (nebu : Nebu) (merkle : HemeraTree) (stores : Walk) (now : UInt64)
    (config : DiskConfig) (deviceNames : List String) (k n : Nat) (fileName : String) :
    Action (World hemera) String Bool := do
  let world ← Action.get
  match world.getFile nebu stores fileName with
  | .err _ => return false
  | .panic => Action.lift .panic
  | .ok data => do
      let shards ← Action.lift (Outcome.expect (encode nebu data k n))
      let commitment := Das.commit merkle shards k data.length
      let shardHashes ← distribute deviceNames shards
      Action.modify fun world =>
        let previous := (world.manager.registry.getRaw fileName).elim 0 FileEntry.timestamp
        world.register (fileEntry merkle hemera fileName data k n shardHashes
          (max now (satAdd previous 1)) commitment config.shardCopies)
      return true

def rechunkFiles (rechunkFile : String → Action (World hemera) String Bool) :
    List String → Action (World hemera) String (Nat × Nat)
  | [] => pure (0, 0)
  | fileName :: rest => do
      let rewritten ← rechunkFile fileName
      let (rechunked, skipped) ← rechunkFiles rechunkFile rest
      return if rewritten then (rechunked + 1, skipped) else (rechunked, skipped + 1)

/-- `rechunk`; `clock` is the reading when a file is rewritten. -/
def rechunk (nebu : Nebu) (merkle : HemeraTree) (stores files : Walk) (clock : String → UInt64)
    (diskName : String) : Action (World hemera) String (Nat × Nat) := do
  let world ← Action.get
  match world.manager.disks[diskName]? with
  | none => Action.fail s!"disk '{diskName}' not found"
  | some config => do
      let deviceNames := world.manager.deviceNames diskName
      let devices := deviceNames.length
      if devices < 2 then return (0, 0)
      else do
        let k ← Action.lift (Outcome.expect (checkedSub devices (config.redundancy.failures devices)))
        let n := nextPowerOfTwo devices
        let outdated := (world.manager.entries files).filter fun entry => entry.k ≠ k ∨ entry.n ≠ n
        rechunkFiles (fun fileName =>
          rechunkFile nebu merkle stores (clock fileName) config deviceNames k n fileName)
          (outdated.map FileEntry.name)

section Rebalance

def sumU64 : List UInt64 → Option UInt64
  | [] => some 0
  | value :: rest => (sumU64 rest).bind fun sum =>
      if value.toNat + sum.toNat < 2 ^ 64 then some (value + sum) else none

/-- `*used as i64 - target as i64`; `none` is the overflow. -/
def loadDelta (used target : UInt64) : Option Int :=
  let delta := used.toInt64.toInt - target.toInt64.toInt
  if -2 ^ 63 ≤ delta ∧ delta < 2 ^ 63 then some delta else none

/-- How far each device is above its share of the total load, most loaded
first.  `share used capacity total` is the product and quotient in `f64`. -/
def loads (world : World hemera) (share : UInt64 → UInt64 → UInt64 → UInt64)
    (deviceNames : List String) : Outcome String (List (String × Int)) := do
  let load := fun name => world.manager.stores[name]?.elim (0, 0) fun store =>
    (store.used, store.capacity)
  let totalCap ← Outcome.expect (sumU64 (deviceNames.map fun name => (load name).2))
  let totalUsed ← Outcome.expect (sumU64 (deviceNames.map fun name => (load name).1))
  if totalCap = 0 ∨ totalUsed = 0 then return []
  else do
    let targets ← Outcome.expect (deviceNames.mapM fun name =>
      (loadDelta (load name).1 (share totalUsed (load name).2 totalCap)).map (name, ·))
    return targets.mergeSort fun left right => right.2 ≤ left.2

/-- Copy a chunk to the first of the devices that lacks it, and how many copies
were made. -/
def migrateShard (source : String) (hash : Particle) (index : Nat) :
    List String → Action (World hemera) String Nat
  | [] => pure 0
  | destination :: rest => do
      let world ← Action.get
      match world.manager.stores[destination]? with
      | none => migrateShard source hash index rest
      | some store =>
          if store.has world.tree hash then migrateShard source hash index rest
          else match world.manager.stores[source]?.bind fun store =>
              (store.get world.tree hash).toOption with
            | none => migrateShard source hash index rest
            | some bytes => do
                let stored ← Action.attempt (putShard destination (bytesToShard index bytes))
                return if stored.isSome then 1 else 0

def migrateShards (overloaded underloaded : List String) :
    List (String × Nat) → Action (World hemera) String Nat
  | [] => pure 0
  | (hashHex, index) :: rest => do
      let world ← Action.get
      match hexToHash hashHex with
      | .error _ => migrateShards overloaded underloaded rest
      | .ok hash =>
          match overloaded.find? fun name =>
              world.manager.stores[name]?.any fun store => store.has world.tree hash with
          | none => migrateShards overloaded underloaded rest
          | some source => do
              let here ← migrateShard source hash index underloaded
              let later ← migrateShards overloaded underloaded rest
              return here + later

def migrateFiles (overloaded underloaded : List String) :
    List String → Action (World hemera) String Nat
  | [] => pure 0
  | fileName :: rest => do
      let world ← Action.get
      match world.manager.registry.get fileName with
      | none => migrateFiles overloaded underloaded rest
      | some entry => do
          let here ← migrateShards overloaded underloaded entry.shardHashes.zipIdx
          let later ← migrateFiles overloaded underloaded rest
          return here + later

def rebalance (share : UInt64 → UInt64 → UInt64 → UInt64) (files : Walk) (diskName : String) :
    Action (World hemera) String Nat := do
  let world ← Action.get
  let deviceNames := world.manager.deviceNames diskName
  if deviceNames.length < 2 then return 0
  else do
    let targets ← Action.lift (world.loads share deviceNames)
    migrateFiles ((targets.filter (0 < ·.2)).map Prod.fst)
      ((targets.filter (·.2 < 0)).map Prod.fst) (files.order world.manager.registry.files.keys)

end Rebalance

end World

end Foculus.VDisk

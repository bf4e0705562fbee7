import Foculus.Store.ChunkStore
import Foculus.Store.Das
import Foculus.Store.Registry
import Mathlib.Data.List.Sort

namespace Foculus.Sync

open Data Erasure Store

/-! # Files of a sync node (`src/node.rs`)

A node is its shared state together with the file system.  The clock and the
answers of the peers are arguments.  What is printed is left out, except that
printing the first 16 bytes of a hash aborts when there are fewer.
-/

structure SharedState where
  registry : GSet
  dataDir : Location
  k : Nat
  n : Nat
  peers : List String
  peerCapacities : List UInt64
  deviceId : String

structure SyncNode where
  state : SharedState
  tree : FileTree

/-- `serde_json` on registries. -/
structure Json where
  pretty : GSet → List UInt8
  parse : String → Option GSet
  response : GSet → String → List UInt8

def SharedState.chunksDir (state : SharedState) : Location := "chunks" :: state.dataDir

/-- Which device each shard is meant for; device 0 is this one. -/
def capacityWeightedPlacement (nShards : Nat) (peerCapacities : List UInt64) : List Nat :=
  let nDevices := peerCapacities.length + 1
  if nShards = 0 then []
  else
    let caps := (2 ^ 64 - 1) :: peerCapacities.map UInt64.toNat
    let totalCap := (caps.map (max · 1)).sum
    let shares := caps.map fun cap => nShards * max cap 1 / totalCap
    let order := (List.range nDevices).insertionSort fun a b => caps.getD b 0 ≤ caps.getD a 0
    let alloc := (order.take (nShards - shares.sum)).foldl (fun alloc d => alloc.modify d (· + 1))
      shares
    (alloc.zipIdx.flatMap fun (count, device) => List.replicate count device).take nShards

namespace SyncNode

def onTree {α : Type} (action : Action FileTree Fault α) : Action SyncNode String α := fun node =>
  match action node.tree with
  | (.ok value, tree) => (.ok value, { node with tree })
  | (.err fault, tree) => (.err fault.text, { node with tree })
  | (.panic, tree) => (.panic, { node with tree })

def writeChunk (hex : String) (bytes : List UInt8) : Action SyncNode String Unit := do
  let node ← Action.get
  onTree (FileTree.writePath node.state.chunksDir hex bytes)

def saveRegistry (json : Json) : Action SyncNode String Unit := do
  let node ← Action.get
  onTree (FileTree.write ("registry.json" :: node.state.dataDir) (json.pretty node.state.registry))

/-- The loop of `put_file`: a chunk is kept here when it is placed here or there
are no peers. -/
def storeShards (hemera : Hemera) (placement : List Nat) (alone : Bool) :
    List Shard → Action SyncNode String (List String)
  | [] => pure []
  | shard :: rest => do
      let bytes := shardToBytes shard
      let hex := hemera.toHex (hemera.hash bytes)
      Action.when (placement.getD shard.index 0 = 0 ∨ alone = true) (writeChunk hex bytes)
      let hashes ← storeShards hemera placement alone rest
      return hex :: hashes

def fileEntry (hemera : Hemera) (merkle : HemeraTree) (state : SharedState) (name : String)
    (data : List UInt8) (shardHashes : List String) (timestamp : UInt64)
    (commitment : DasCommitment) : FileEntry where
  name := name
  originalLen := data.length
  k := state.k
  n := state.n
  shardHashes := shardHashes
  timestamp := timestamp
  entryHash := FileEntry.computeHash hemera name shardHashes timestamp state.deviceId
  deviceId := state.deviceId
  dasRoot := merkle.debug commitment.root
  shardCopies := 1
  deleted := false

def register (node : SyncNode) (entry : FileEntry) : SyncNode :=
  { node with state.registry := node.state.registry.insert entry }

def putFile (hemera : Hemera) (nebu : Nebu) (merkle : HemeraTree) (json : Json) (now : UInt64)
    (name : String) (data : List UInt8) : Action SyncNode String Unit := do
  let node ← Action.get
  let state := node.state
  let shards ← Action.lift (Outcome.expect (encode nebu data state.k state.n))
  let commitment := Das.commit merkle shards state.k data.length
  let placement := capacityWeightedPlacement state.n state.peerCapacities
  let shardHashes ← storeShards hemera placement state.peers.isEmpty shards
  Action.modify (·.register (fileEntry hemera merkle state name data shardHashes now commitment))
  saveRegistry json

def tombstone (hemera : Hemera) (state : SharedState) (existing : FileEntry) (name : String)
    (timestamp : UInt64) : FileEntry where
  name := name
  originalLen := 0
  k := existing.k
  n := existing.n
  shardHashes := existing.shardHashes
  timestamp := timestamp
  entryHash := FileEntry.computeHash hemera name existing.shardHashes timestamp state.deviceId
  deviceId := state.deviceId
  dasRoot := String.ofList (List.replicate 64 '0')
  shardCopies := 1
  deleted := true

def deleteFile (hemera : Hemera) (json : Json) (now : UInt64) (name : String) :
    Action SyncNode String Unit := do
  let node ← Action.get
  match node.state.registry.getRaw name with
  | none => Action.fail s!"file '{name}' not found"
  | some existing =>
      if existing.deleted then Action.fail s!"file '{name}' already deleted"
      else do
        Action.modify (·.register (tombstone hemera node.state existing name now))
        saveRegistry json

/-- `&text[..16]` aborts unless the text has a character boundary there. -/
def sliced (text : String) : Outcome String Unit :=
  let bytes := strBytes text
  if 16 ≤ bytes.length ∧ (bytes.getD 16 0).toNat / 64 ≠ 2 then .ok () else .panic

/-- The chunk in the local file, if there is one; a corrupted one is removed. -/
def tryLocal (hemera : Hemera) (expectedHash : String) :
    Action SyncNode String (Option (List UInt8)) := do
  let node ← Action.get
  match node.tree.resolve node.state.chunksDir expectedHash with
  | none => return none
  | some place => do
      let bytes ← Action.lift (Outcome.ofExcept ((node.tree.read place).mapError Fault.text))
      if verifyChunk hemera bytes expectedHash then return some bytes
      else do
        Action.lift (sliced expectedHash)
        onTree (FileTree.removeFile place)
        return none

/-- The peers in turn, until one returns bytes with the expected hash; these are
kept in the local file. -/
def tryPeers (hemera : Hemera) (expectedHash : String) :
    List (Option (List UInt8)) → Action SyncNode String (Option (List UInt8))
  | [] => pure none
  | none :: rest => tryPeers hemera expectedHash rest
  | some bytes :: rest =>
      if verifyChunk hemera bytes expectedHash then do
        writeChunk expectedHash bytes
        return some bytes
      else do
        Action.lift (sliced expectedHash)
        tryPeers hemera expectedHash rest

def findChunk (hemera : Hemera) (expectedHash : String) (answers : List (Option (List UInt8))) :
    Action SyncNode String (Option (List UInt8)) := do
  let present ← tryLocal hemera expectedHash
  match present with
  | some bytes => return some bytes
  | none => tryPeers hemera expectedHash answers

/-- The loop of `get_file` over the shard hashes and their positions. -/
def gather (hemera : Hemera) (answers : Nat → List (Option (List UInt8))) (k : Nat)
    (availableShards : List Shard) : List (String × Nat) → Action SyncNode String (List Shard)
  | [] => pure availableShards
  | (expectedHash, index) :: rest => do
      let bytes ← findChunk hemera expectedHash (answers index)
      let availableShards := availableShards ++ bytes.toList.map (bytesToShard index)
      if k ≤ availableShards.length then return availableShards
      else gather hemera answers k availableShards rest

/-- `get_file`; `fetch index peer` is what the peer at that position returns when it
is asked for the shard of that index. -/
def getFile (hemera : Hemera) (nebu : Nebu) (fetch : Nat → Nat → Option (List UInt8))
    (name : String) : Action SyncNode String (List UInt8) := do
  let node ← Action.get
  match node.state.registry.get name with
  | none => Action.fail s!"file '{name}' not found"
  | some entry => do
      let answers := fun index => (List.range node.state.peers.length).map (fetch index)
      let availableShards ← gather hemera answers entry.k [] entry.shardHashes.zipIdx
      let count := availableShards.length
      let k := entry.k
      if count < k then
        Action.fail s!"only {count} of {k} required shards available for '{name}'"
      else Action.lift (decode nebu availableShards k entry.n entry.originalLen)

end SyncNode

end Foculus.Sync

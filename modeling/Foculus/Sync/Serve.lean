import Foculus.Data.Confinement
import Foculus.Sync.Files

namespace Foculus.Sync

open Data Store

/-! # Requests of peers (`handle_connection` in `src/node.rs`) -/

def msgPing : UInt8 := 1
def msgPong : UInt8 := 2
def msgGetChunk : UInt8 := 5
def msgChunkData : UInt8 := 6
def msgChunkNotFound : UInt8 := 7
def msgRegistry : UInt8 := 8
def msgRegistryResponse : UInt8 := 9

/-- What a peer receives: the bytes sent before the stream is finished, or
nothing because the connection is given up. -/
inductive Reply where
  | sent (bytes : List UInt8)
  | dropped
deriving DecidableEq

section Wire

def readU32 : List UInt8 → Option (Nat × List UInt8)
  | b0 :: b1 :: b2 :: b3 :: rest => some (ofLeBytes [b3, b2, b1, b0], rest)
  | _ => none

def readBytes (stream : List UInt8) : Option (List UInt8) :=
  (readU32 stream).bind fun (length, rest) =>
    if length ≤ rest.length then some (rest.take length) else none

def readString (stream : List UInt8) : Option String :=
  (readBytes stream).bind fun bytes => String.fromUTF8? ⟨bytes.toArray⟩

def writeBytes (data : List UInt8) : List UInt8 :=
  (leBytes 4 (data.length % 2 ^ 32)).reverse ++ data

end Wire

namespace SyncNode

/-- The reply to `MSG_GET_CHUNK`: the requested name is joined to the chunks
directory as it is. -/
def serveChunk (node : SyncNode) (hashHex : String) : Reply :=
  match node.tree.resolve node.state.chunksDir hashHex with
  | none => .sent [msgChunkNotFound]
  | some place =>
      match node.tree.read place with
      | .ok data => .sent (msgChunkData :: writeBytes data)
      | .error _ => .dropped

def serveRegistry (hemera : Hemera) (json : Json) (node : SyncNode) : Reply :=
  let path := "registry.json" :: node.state.dataDir
  let registry :=
    if node.tree.has path then
      match node.tree.read path with
      | .ok bytes => (String.fromUTF8? ⟨bytes.toArray⟩).map fun text => (json.parse text).getD .new
      | .error _ => none
    else some node.state.registry
  match registry with
  | none => .dropped
  | some registry =>
      let merkleRoot := GSet.merkleRoot hemera registry.values
      .sent (msgRegistryResponse :: writeBytes (json.response registry merkleRoot))

def handleConnection (hemera : Hemera) (json : Json) (node : SyncNode) : List UInt8 → Reply
  | [] => .dropped
  | msgType :: stream =>
      if msgType = msgPing then .sent [msgPong]
      else if msgType = msgGetChunk then
        match readString stream with
        | none => .dropped
        | some hashHex => node.serveChunk hashHex
      else if msgType = msgRegistry then node.serveRegistry hemera json
      else .sent []

end SyncNode

/-- Two states of one node whose chunks directories have the same entries. -/
structure SameChunks (left right : SyncNode) : Prop where
  same_dir : left.state.dataDir = right.state.dataDir
  agree : FileTree.Agree left.state.chunksDir left.tree right.tree

namespace SyncNode

theorem handleConnection_getChunk (hemera : Hemera) (json : Json) (node : SyncNode)
    {stream : List UInt8} {hashHex : String} (requested : readString stream = some hashHex) :
    node.handleConnection hemera json (msgGetChunk :: stream) = node.serveChunk hashHex := by
  simp [handleConnection, msgGetChunk, msgPing, requested]

theorem handleConnection_unreadable (hemera : Hemera) (json : Json) (node : SyncNode)
    {stream : List UInt8} (unreadable : readString stream = none) :
    node.handleConnection hemera json (msgGetChunk :: stream) = .dropped := by
  simp [handleConnection, msgGetChunk, msgPing, unreadable]

theorem serveChunk_congr {left right : SyncNode} (same : SameChunks left right) {hashHex : String}
    (confined : FileTree.Confined left.state.chunksDir hashHex) :
    left.serveChunk hashHex = right.serveChunk hashHex := by
  obtain ⟨resolved, found⟩ := FileTree.resolve_congr same.agree confined
  have dirs : right.state.chunksDir = left.state.chunksDir := by
    rw [SharedState.chunksDir, SharedState.chunksDir, same.same_dir]
  rw [serveChunk, serveChunk, dirs, ← resolved]
  cases place : left.tree.resolve left.state.chunksDir hashHex with
  | none => rfl
  | some place =>
      simp only [FileTree.read, found _ ‹_›]

/-- A chunk request has one reply in all states of a node with the same chunks
exactly when the requested path stays in the chunks directory: on its way it
meets only that directory, its ancestors and its entries. -/
theorem chunk_reply_determined_iff (hemera : Hemera) (json : Json) (dataDir : Location)
    (stream : List UInt8) :
    (∀ left right : SyncNode, left.state.dataDir = dataDir → SameChunks left right →
      left.handleConnection hemera json (msgGetChunk :: stream) =
        right.handleConnection hemera json (msgGetChunk :: stream)) ↔
    ∀ hashHex, readString stream = some hashHex →
      FileTree.Confined ("chunks" :: dataDir) hashHex := by
  constructor
  · intro determined hashHex requested
    by_contra escapes
    obtain ⟨left, right, agree, ⟨place, resolved, dir⟩, lost⟩ :=
      FileTree.exists_distinguishing escapes
    let state : SharedState :=
      { registry := .new, dataDir, k := 1, n := 1, peers := [], peerCapacities := []
        deviceId := "" }
    have replies := determined ⟨state, left⟩ ⟨state, right⟩ rfl ⟨rfl, agree⟩
    rw [handleConnection_getChunk hemera json _ requested,
      handleConnection_getChunk hemera json _ requested] at replies
    have given : serveChunk ⟨state, left⟩ hashHex = .dropped := by
      simp [serveChunk, SharedState.chunksDir, state, resolved, FileTree.read, dir]
    have refused : serveChunk ⟨state, right⟩ hashHex = .sent [msgChunkNotFound] := by
      simp [serveChunk, SharedState.chunksDir, state, lost]
    rw [given, refused] at replies
    cases replies
  · intro confined left right here same
    cases requested : readString stream with
    | none =>
        rw [handleConnection_unreadable hemera json left requested,
          handleConnection_unreadable hemera json right requested]
    | some hashHex =>
        rw [handleConnection_getChunk hemera json left requested,
          handleConnection_getChunk hemera json right requested]
        apply serveChunk_congr same
        rw [SharedState.chunksDir, here]
        exact confined hashHex requested

/-- The key file of a node lies next to its chunks directory: with the request
`../secret.key` a peer reads it, or learns that it does not exist. -/
theorem key_file_is_served :
    let request := msgGetChunk :: writeBytes (strBytes "../secret.key")
    let bare := home
    let keyed : SyncNode :=
      { home with tree := (FileTree.write ["secret.key"] [1, 2, 3] home.tree).2 }
    SameChunks bare keyed ∧
      bare.handleConnection .truncating emptyJson request = .sent [msgChunkNotFound] ∧
      keyed.handleConnection .truncating emptyJson request =
        .sent (msgChunkData :: [0, 0, 0, 3, 1, 2, 3]) := by
  intro request bare keyed
  have written : FileTree.write ["secret.key"] [1, 2, 3] home.tree = (.ok (), keyed.tree) := rfl
  refine ⟨⟨rfl, rfl, ?_, ?_⟩, by decide +kernel, by decide +kernel⟩
  · rw [FileTree.write_ok written]
    decide
  · intro name
    rw [FileTree.write_ok written, Function.update_of_ne (by simp [bare, home, SharedState.chunksDir])]

end SyncNode

end Foculus.Sync

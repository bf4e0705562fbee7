import Foculus.Sync.Node

namespace Foculus.Sync

open Data Erasure Store

/-! # What `get_file` can return

Every chunk is checked against its hash before it is used, wherever it comes
from.  So whatever lies in the local files and whatever the peers answer, the
shards that are decoded are shards of the file.
-/

namespace SyncNode

theorem onTree_ok {α : Type} {action : Action FileTree Fault α} {node after : SyncNode} {value : α}
    (run : onTree action node = (.ok value, after)) :
    action node.tree = (.ok value, after.tree) ∧ after.state = node.state := by
  simp only [onTree] at run
  split at run
  · rename_i result tree called
    cases run
    exact ⟨called, rfl⟩
  · cases run
  · cases run

section Fetch

variable {hemera : Hemera} {contents : Set (List UInt8)} {expectedHash : String}
  {node after : SyncNode} {found : Option (List UInt8)}

theorem writeChunk_holding {bytes : List UInt8} (member : bytes ∈ contents)
    (holding : node.tree.Holding contents)
    (run : writeChunk expectedHash bytes node = (.ok (), after)) : after.tree.Holding contents := by
  rw [writeChunk, Action.get_bind] at run
  obtain ⟨target, updated⟩ := FileTree.writePath_ok (onTree_ok run).1
  refine holding.update updated fun other file => ?_
  cases file
  exact member

/-- What a successful search for a chunk has established. -/
structure Checked (hemera : Hemera) (contents : Set (List UInt8)) (expectedHash : String)
    (found : Option (List UInt8)) (after : SyncNode) : Prop where
  holding : after.tree.Holding contents
  verified : ∀ bytes, found = some bytes → bytes ∈ contents ∧
    verifyChunk hemera bytes expectedHash = true

theorem tryLocal_checked (holding : node.tree.Holding contents)
    (run : tryLocal hemera expectedHash node = (.ok found, after)) :
    Checked hemera contents expectedHash found after := by
  rw [tryLocal, Action.get_bind] at run
  cases resolved : node.tree.resolve node.state.chunksDir expectedHash with
  | none =>
      rw [resolved] at run
      cases run
      exact ⟨holding, by simp⟩
  | some place =>
      rw [resolved] at run
      obtain ⟨bytes, read, checking⟩ := Action.lift_bind_eq_ok_iff.mp run
      have content := mapError_eq_ok_iff.mp (Outcome.ofExcept_eq_ok.mp read)
      split_ifs at checking with verified
      · cases checking
        refine ⟨holding, ?_⟩
        rintro other ⟨⟩
        exact ⟨holding.read content, verified⟩
      · obtain ⟨_, -, removing⟩ := Action.lift_bind_eq_ok_iff.mp checking
        obtain ⟨_, between, removed, finished⟩ := Action.bind_eq_ok_iff.mp removing
        cases finished
        have updated := FileTree.removeFile_ok (onTree_ok removed).1
        exact ⟨holding.update updated (by simp), by simp⟩

theorem tryPeers_checked {answers : List (Option (List UInt8))}
    (answered : ∀ bytes, some bytes ∈ answers → bytes ∈ contents)
    (holding : node.tree.Holding contents)
    (run : tryPeers hemera expectedHash answers node = (.ok found, after)) :
    Checked hemera contents expectedHash found after := by
  induction answers with
  | nil =>
      cases run
      exact ⟨holding, by simp⟩
  | cons answer rest ih =>
      have later := ih fun bytes member => answered bytes (by simp [member])
      cases answer with
      | none => exact later run
      | some bytes =>
          have member := answered bytes (by simp)
          rw [tryPeers] at run
          split_ifs at run with verified
          · obtain ⟨_, between, written, run⟩ := Action.bind_eq_ok_iff.mp run
            cases run
            refine ⟨writeChunk_holding member holding written, ?_⟩
            rintro other ⟨⟩
            exact ⟨member, verified⟩
          · obtain ⟨_, -, continuing⟩ := Action.lift_bind_eq_ok_iff.mp run
            exact later continuing

theorem findChunk_checked {answers : List (Option (List UInt8))}
    (answered : ∀ bytes, some bytes ∈ answers → bytes ∈ contents)
    (holding : node.tree.Holding contents)
    (run : findChunk hemera expectedHash answers node = (.ok found, after)) :
    Checked hemera contents expectedHash found after := by
  obtain ⟨present, between, searched, asked⟩ := Action.bind_eq_ok_iff.mp run
  have atHome := tryLocal_checked holding searched
  cases present with
  | none => exact tryPeers_checked answered atHome.holding asked
  | some bytes =>
      cases asked
      exact atHome

end Fetch

section Gather

variable {hemera : Hemera} {contents : Set (List UInt8)} {shards : List Shard}
  {answers : Nat → List (Option (List UInt8))} {k : Nat}

/-- The shards are genuine and no index occurs twice. -/
structure Partial (shards found : List Shard) : Prop where
  members : ∀ shard ∈ found, shard ∈ shards
  distinct : (found.map Shard.index).Nodup

theorem gather_partial
    (matching : ∀ shard ∈ shards, ∀ bytes ∈ contents,
      verifyChunk hemera bytes (chunkName hemera shard) = true → bytes = shardToBytes shard)
    (answered : ∀ index bytes, some bytes ∈ answers index → bytes ∈ contents)
    {pending found result : List Shard} {start : Nat} {node after : SyncNode}
    (indices : pending.map Shard.index = List.range' start pending.length)
    (remaining : ∀ shard ∈ pending, shard ∈ shards) (genuine : Partial shards found)
    (earlier : ∀ shard ∈ found, shard.index < start) (holding : node.tree.Holding contents)
    (run : gather hemera answers k found ((pending.map (chunkName hemera)).zipIdx start) node =
      (.ok result, after)) : Partial shards result := by
  induction pending generalizing found start node with
  | nil =>
      cases run
      exact genuine
  | cons shard rest ih =>
      simp only [List.map_cons, List.length_cons, List.range'_succ, List.cons.injEq] at indices
      obtain ⟨rfl, indices⟩ := indices
      rw [List.map_cons, List.zipIdx_cons, gather] at run
      obtain ⟨fetched, between, searched, continuing⟩ := Action.bind_eq_ok_iff.mp run
      have checked := findChunk_checked (answered shard.index) holding searched
      -- A verified chunk is the shard whose hash it was checked against.
      have added : ∀ other ∈ fetched.toList.map (bytesToShard shard.index), other = shard := by
        intro other member
        obtain ⟨bytes, fetchedMember, rfl⟩ := List.mem_map.mp member
        obtain ⟨known, verified⟩ := checked.verified bytes (Option.mem_toList.mp fetchedMember)
        cases matching shard (remaining shard (by simp)) bytes known verified
        exact bytesToShard_shardToBytes shard
      have extended : Partial shards
          (found ++ fetched.toList.map (bytesToShard shard.index)) := by
        refine ⟨?_, ?_⟩
        · intro other member
          rcases List.mem_append.mp member with before | new
          · exact genuine.members other before
          · cases added other new
            exact remaining shard (by simp)
        · rw [List.map_append]
          refine genuine.distinct.append ?_ ?_
          · cases fetched <;> simp
          · intro index before new
            obtain ⟨old, oldMember, rfl⟩ := List.mem_map.mp before
            obtain ⟨other, otherMember, same⟩ := List.mem_map.mp new
            cases added other otherMember
            exact absurd same (earlier old oldMember).ne'
      split_ifs at continuing with enough
      · cases continuing
        exact extended
      · refine ih indices (fun other member => remaining other (by simp [member])) extended ?_
          checked.holding continuing
        intro other member
        rcases List.mem_append.mp member with before | new
        · exact (earlier other before).trans (Nat.lt_succ_self _)
        · cases added other new
          exact Nat.lt_succ_self _

end Gather

section PutFile

variable {hemera : Hemera} {nebu : Nebu} {merkle : HemeraTree} {json : Json} {now : UInt64}
  {name : String} {data : List UInt8} {node after : SyncNode}

def shardsOf (nebu : Nebu) (state : SharedState) (data : List UInt8) : List Shard :=
  (encode nebu data state.k state.n).getD []

/-- The entry that `put_file` makes. -/
def putEntry (hemera : Hemera) (nebu : Nebu) (merkle : HemeraTree) (state : SharedState)
    (now : UInt64) (name : String) (data : List UInt8) : FileEntry :=
  let shards := shardsOf nebu state data
  fileEntry hemera merkle state name data (shards.map (chunkName hemera)) now
    (Das.commit merkle shards state.k data.length)

theorem storeShards_ok {placement : List Nat} {alone : Bool} {shards : List Shard}
    {hashes : List String}
    (stored : storeShards hemera placement alone shards node = (.ok hashes, after)) :
    hashes = shards.map (chunkName hemera) ∧ after.state = node.state := by
  induction shards generalizing node hashes with
  | nil =>
      cases stored
      exact ⟨rfl, rfl⟩
  | cons shard rest ih =>
      obtain ⟨_, between, kept, continuing⟩ := Action.bind_eq_ok_iff.mp stored
      obtain ⟨later, _, storing, returned⟩ := Action.bind_eq_ok_iff.mp continuing
      cases returned
      obtain ⟨rfl, same⟩ := ih storing
      refine ⟨rfl, same.trans ?_⟩
      rw [Action.when] at kept
      split_ifs at kept
      · rw [writeChunk, Action.get_bind] at kept
        exact (onTree_ok kept).2
      · cases kept
        rfl

theorem saveRegistry_ok (saved : saveRegistry json node = (.ok (), after)) :
    after.state = node.state := by
  rw [saveRegistry, Action.get_bind] at saved
  exact (onTree_ok saved).2

/-- What a `put_file` that returns has done: it stored the chunks, handed its entry
to the registry and saved that. -/
theorem putFile_steps (put : putFile hemera nebu merkle json now name data node = (.ok (), after)) :
    encode nebu data node.state.k node.state.n = some (shardsOf nebu node.state data) ∧
      ∃ hashes between, storeShards hemera
        (capacityWeightedPlacement node.state.n node.state.peerCapacities)
        node.state.peers.isEmpty (shardsOf nebu node.state data) node = (.ok hashes, between) ∧
      saveRegistry json (between.register
        (putEntry hemera nebu merkle node.state now name data)) = (.ok (), after) := by
  rw [putFile, Action.get_bind] at put
  obtain ⟨shards, coded, storing⟩ := Action.lift_bind_eq_ok_iff.mp put
  have coded := Outcome.expect_eq_ok.mp coded
  have made : shardsOf nebu node.state data = shards := by rw [shardsOf, coded, Option.getD_some]
  obtain ⟨hashes, between, stored, registering⟩ := Action.bind_eq_ok_iff.mp storing
  rw [Action.modify_bind] at registering
  obtain ⟨rfl, -⟩ := storeShards_ok stored
  refine ⟨made ▸ coded, _, between, made ▸ stored, ?_⟩
  rw [putEntry, made]
  exact registering

theorem putFile_ok (put : putFile hemera nebu merkle json now name data node = (.ok (), after)) :
    encode nebu data node.state.k node.state.n = some (shardsOf nebu node.state data) ∧
      after.state.registry =
        node.state.registry.insert (putEntry hemera nebu merkle node.state now name data) := by
  obtain ⟨coded, hashes, between, stored, saved⟩ := putFile_steps put
  refine ⟨coded, ?_⟩
  rw [saveRegistry_ok saved, register, (storeShards_ok stored).2]

end PutFile

/-- The chunks of the file, what lies in the reader's files and what its peers answer. -/
def atHand (shards : List Shard) (reader : SyncNode) (fetch : Nat → Nat → Option (List UInt8)) :
    Set (List UInt8) :=
  {bytes | ∃ shard ∈ shards, bytes = shardToBytes shard} ∪
  {bytes | ∃ place, reader.tree.node place = some (.file bytes)} ∪
  {bytes | ∃ index peer, fetch index peer = some bytes}

/-- What `get_file` returns for an entry that `put_file` wrote is the data that was
put, whatever the local files hold and whatever the peers answer. -/
theorem getFile_eq_put (hemera : Hemera) (hexInjective : Function.Injective hemera.toHex)
    (nebu : Nebu) (lawful : nebu.Lawful) (merkle : HemeraTree) (json : Json) (now : UInt64)
    (name : String) (data : List UInt8) (writer written : SyncNode)
    (bound : writer.state.n ≤ 2 ^ 32)
    (put : putFile hemera nebu merkle json now name data writer = (.ok (), written))
    (reader after : SyncNode) (fetch : Nat → Nat → Option (List UInt8)) (bytes : List UInt8)
    (registered : reader.state.registry.get name =
      some (putEntry hemera nebu merkle writer.state now name data))
    (free : hemera.CollisionFree (atHand (shardsOf nebu writer.state data) reader fetch))
    (got : getFile hemera nebu fetch name reader = (.ok bytes, after)) : bytes = data := by
  obtain ⟨coded, -⟩ := putFile_ok put
  have codeword := encode_codeword lawful bound coded
  have matching : ∀ shard ∈ shardsOf nebu writer.state data,
      ∀ chunk ∈ atHand (shardsOf nebu writer.state data) reader fetch,
        verifyChunk hemera chunk (chunkName hemera shard) = true → chunk = shardToBytes shard := by
    intro shard member chunk known verified
    exact free known (.inl (.inl ⟨shard, member, rfl⟩))
      (hexInjective (beq_iff_eq.mp verified))
  have indices : (shardsOf nebu writer.state data).map Shard.index =
      List.range' 0 (shardsOf nebu writer.state data).length := by
    rw [codeword.indices, codeword.length, List.range_eq_range']
  rw [getFile, Action.get_bind] at got
  simp only [registered] at got
  obtain ⟨found, between, gathered, decoding⟩ := Action.bind_eq_ok_iff.mp got
  have genuine : Partial (shardsOf nebu writer.state data) found := by
    refine gather_partial matching ?_ indices (fun _ member => member) ⟨by simp, by simp⟩ (by simp)
      ?_ gathered
    · intro index chunk member
      obtain ⟨peer, -, answered⟩ := List.mem_map.mp member
      exact .inr ⟨index, peer, answered⟩
    · exact fun found => .inl (.inr ⟨_, found⟩)
  split_ifs at decoding with short
  · cases decoding
  · rw [Action.lift_apply, Prod.mk.injEq] at decoding
    have decoded := codeword.decodes found genuine.members genuine.distinct (not_lt.mp short)
    exact Outcome.ok.inj (decoding.1.symm.trans decoded)

section Example

/-- An empty `chunks` directory. -/
def chunksTree : FileTree :=
  (FileTree.bare fun _ => none).update "chunks" [] (some .dir) (FileTree.root_dir _)
    (by simp [FileTree.bare])

theorem chunksTree_no_file (place : Location) (bytes : List UInt8) :
    chunksTree.node place ≠ some (.file bytes) := by
  rw [chunksTree, FileTree.update_node, Function.update_apply]
  split_ifs
  · simp
  · simp only [FileTree.bare]
    split_ifs <;> simp

def emptyJson : Json where
  pretty _ := []
  parse _ := none
  response _ _ := []

def home : SyncNode where
  state :=
    { registry := .new, dataDir := [], k := 1, n := 2, peers := [], peerCapacities := []
      deviceId := "home" }
  tree := chunksTree

/-- A node that has the entry but none of the chunks. -/
def away : SyncNode where
  state :=
    { registry := GSet.new.insert
        (putEntry .truncating naiveNebu .truncating home.state 5 "notes" [7])
      dataDir := [], k := 1, n := 2, peers := ["home"], peerCapacities := [0], deviceId := "away" }
  tree := chunksTree

theorem getFile_eq_put_from_peer :
    let fetch : Nat → Nat → Option (List UInt8) := fun _ _ => some (shardToBytes ⟨0, [7]⟩)
    (putFile .truncating naiveNebu .truncating emptyJson 5 "notes" [7] home).1 = .ok () ∧
      Hemera.truncating.CollisionFree (atHand (shardsOf naiveNebu home.state [7]) away fetch) ∧
      ∃ bytes after, getFile .truncating naiveNebu fetch "notes" away = (.ok bytes, after) ∧
        bytes = [7] := by
  intro fetch
  have put : (putFile .truncating naiveNebu .truncating emptyJson 5 "notes" [7] home).1 =
      .ok () := by
    rw [naiveNebu_eq]
    decide +kernel
  have registered : away.state.registry.get "notes" =
      some (putEntry .truncating naiveNebu .truncating home.state 5 "notes" [7]) :=
    GSet.get_insert_of_absent (by decide +kernel) rfl
  have copies : ∀ shard ∈ shardsOf naiveNebu home.state [7],
      shardToBytes shard = shardToBytes ⟨0, [7]⟩ := by
    rw [naiveNebu_eq]
    decide +kernel
  have only : ∀ bytes ∈ atHand (shardsOf naiveNebu home.state [7]) away fetch,
      bytes = shardToBytes ⟨0, [7]⟩ := by
    rintro bytes ((⟨shard, member, rfl⟩ | ⟨place, file⟩) | ⟨index, peer, answered⟩)
    · exact copies shard member
    · exact absurd file (chunksTree_no_file place bytes)
    · exact (Option.some.inj answered).symm
  have free : Hemera.truncating.CollisionFree
      (atHand (shardsOf naiveNebu home.state [7]) away fetch) := by
    intro left leftMember right rightMember _
    rw [only left leftMember, only right rightMember]
  have got : (getFile .truncating naiveNebu fetch "notes" away).1 = .ok [7] := by
    unfold away
    rw [naiveNebu_eq]
    decide +kernel
  refine ⟨put, free, [7], _, Action.eq_of_fst_ok got, ?_⟩
  exact getFile_eq_put .truncating hexText_injective naiveNebu naiveNebu_lawful .truncating
    emptyJson 5 "notes" [7] home _ (by decide) (Action.eq_of_fst_ok put) away _ fetch [7]
    registered free (Action.eq_of_fst_ok got)

end Example

end SyncNode

end Foculus.Sync

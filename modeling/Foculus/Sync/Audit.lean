import Foculus.Store.Audit
import Foculus.Sync.Availability

namespace Foculus.Sync

open Data Erasure Store

/-! # Healing (`audit` and `sync_with` in `src/node.rs`)

`sync_with` fetches a chunk only where there is no file, so a damaged one stays until an
audit has removed it.
-/

namespace SyncNode

variable {hemera : Hemera} {node after : SyncNode} {entries : List String}

/-- `audit`, with the names that `read_dir` lists. -/
def audit (hemera : Hemera) (entries : List String) : Action SyncNode String (Nat × Nat) := do
  let node ← Action.get
  onTree (ChunkStore.auditDirectory hemera node.state.dataDir entries)

/-- The chunk files that do not have their hash. -/
def corruptChunks (hemera : Hemera) (node : SyncNode) (entries : List String) : List String :=
  ChunkStore.corruptChunks hemera node.tree node.state.dataDir entries

/-- The number of chunk files that have their hash. -/
def intactChunks (hemera : Hemera) (node : SyncNode) (entries : List String) : Nat :=
  (ChunkStore.chunkEntries entries).countP (node.holdsChunk hemera)

theorem intact_eq_holdsChunk :
    ChunkStore.intact hemera node.state.chunksDir node.tree = node.holdsChunk hemera := by
  funext hex
  unfold ChunkStore.intact holdsChunk
  cases node.tree.node (hex :: node.state.chunksDir) with
  | none => rfl
  | some found =>
      cases found with
      | file bytes => rfl
      | dir => rfl

theorem audit_cases (hemera : Hemera)
    (dir : node.tree.node node.state.chunksDir = some .dir)
    (lists : ChunkStore.Lists node.tree node.state.chunksDir entries) :
    ∃ outcome after gone, audit hemera entries node = (outcome, after) ∧
      after.state = node.state ∧ gone <+: node.corruptChunks hemera entries ∧
      ChunkStore.Cleared node.state.chunksDir gone node.tree after.tree ∧
      (outcome = .ok (node.intactChunks hemera entries,
          (node.corruptChunks hemera entries).length) ∧
        gone = node.corruptChunks hemera entries ∨
      outcome = .err Fault.denied.text ∧ ∃ name ∈ node.corruptChunks hemera entries,
        node.tree.obstacle (name :: node.state.chunksDir) = some .denied) := by
  obtain ⟨outcome, tree, gone, run, before, cleared, ended⟩ :=
    ChunkStore.auditDirectory_cases hemera dir lists
  have counted : (ChunkStore.chunkEntries entries).countP
      (ChunkStore.intact hemera ("chunks" :: node.state.dataDir) node.tree) =
        node.intactChunks hemera entries := by
    rw [intactChunks, ← intact_eq_holdsChunk, SharedState.chunksDir]
  rw [counted] at ended
  rcases ended with ⟨rfl, all⟩ | ⟨rfl, denied⟩
  · refine ⟨_, { node with tree }, gone, ?_, rfl, before, cleared, .inl ⟨rfl, all⟩⟩
    rw [audit, Action.get_bind, onTree, run]
    rfl
  · refine ⟨_, { node with tree }, gone, ?_, rfl, before, cleared, .inr ⟨rfl, denied⟩⟩
    rw [audit, Action.get_bind, onTree, run]

/-- An audit that returned has cleared the directory of damaged chunks. -/
theorem audit_ok (dir : node.tree.node node.state.chunksDir = some .dir)
    (lists : ChunkStore.Lists node.tree node.state.chunksDir entries) {report : Nat × Nat}
    (audited : audit hemera entries node = (.ok report, after)) :
    report = (node.intactChunks hemera entries, (node.corruptChunks hemera entries).length) ∧
      after.state = node.state ∧ ChunkStore.Cleared node.state.chunksDir
        (node.corruptChunks hemera entries) node.tree after.tree := by
  obtain ⟨outcome, left, gone, run, state, -, cleared, ⟨rfl, rfl⟩ | ⟨rfl, -⟩⟩ :=
    audit_cases hemera dir lists
  · cases run.symm.trans audited
    exact ⟨rfl, state, cleared⟩
  · cases run.symm.trans audited

section Cleared

variable (lists : ChunkStore.Lists node.tree node.state.chunksDir entries)
  (state : after.state = node.state)
  (cleared : ChunkStore.Cleared node.state.chunksDir (node.corruptChunks hemera entries) node.tree
    after.tree)
include state cleared

/-- The audit removes no chunk that has its hash. -/
theorem cleared_holdsChunk (hash : String) :
    after.holdsChunk hemera hash = node.holdsChunk hemera hash := by
  rw [holdsChunk, holdsChunk, state, cleared.nodes]
  split_ifs with gone
  · obtain ⟨name, chosen, same⟩ := List.mem_map.mp gone
    cases same
    obtain ⟨bytes, file, wrong⟩ := ChunkStore.damaged_iff.mp (List.mem_filter.mp chosen).2
    have standing : node.tree.node (hash :: node.state.chunksDir) = some (.file bytes) := file
    rw [standing]
    exact wrong.symm
  · rfl

include lists

theorem cleared_clean {hash : String} (isChunk : (strBytes hash).length = 64)
    (leaf : node.tree.node (hash :: node.state.chunksDir) ≠ some .dir) : Clean hemera after hash := by
  have sound : ChunkStore.damaged hemera node.state.chunksDir after.tree hash = false :=
    cleared.not_damaged lists isChunk
  rw [Clean, holdsChunk, FileTree.has, state]
  rw [ChunkStore.damaged] at sound
  cases standing : after.tree.node (hash :: node.state.chunksDir) with
  | none => exact .inr rfl
  | some found =>
      cases found with
      | dir =>
          rw [cleared.nodes] at standing
          split_ifs at standing
          exact absurd standing leaf
      | file bytes =>
          rw [standing] at sound
          left
          simpa using sound

/-- The directory is ready for the next `sync_with`. -/
theorem cleared_intact {hashes : List String} (ready : Ready hashes node)
    (chunks : ∀ hash ∈ hashes, (strBytes hash).length = 64) : Intact hemera hashes after where
  dir := by
    rw [state, cleared.nodes, if_neg, ready.dir]
    intro gone
    obtain ⟨name, -, same⟩ := List.mem_map.mp gone
    exact List.cons_ne_self _ _ same
  room hash member := by rw [state, cleared.obstacle, ready.room hash member]
  clean hash member := cleared_clean lists state cleared (chunks hash member) (ready.leaf hash member)

theorem cleared_intactChunks {again : List String}
    (relists : ChunkStore.Lists after.tree after.state.chunksDir again) :
    after.intactChunks hemera again = node.intactChunks hemera entries := by
  have listed {state : SyncNode} {names : List String} {name : String}
      (lists : ChunkStore.Lists state.tree state.state.chunksDir names)
      (holds : state.holdsChunk hemera name = true) : name ∈ names := by
    obtain ⟨bytes, file, -⟩ := holdsChunk_iff.mp holds
    exact (lists.complete name).mp (by rw [FileTree.has, file]; rfl)
  have same : ((ChunkStore.chunkEntries again).filter (after.holdsChunk hemera)).Perm
      ((ChunkStore.chunkEntries entries).filter (node.holdsChunk hemera)) := by
    refine (List.perm_ext_iff_of_nodup ((relists.distinct.filter _).filter _)
      ((lists.distinct.filter _).filter _)).mpr fun name => ?_
    simp only [List.mem_filter, cleared_holdsChunk state cleared name]
    constructor
    · rintro ⟨⟨-, isChunk⟩, holds⟩
      exact ⟨⟨listed lists holds, isChunk⟩, holds⟩
    · rintro ⟨⟨-, isChunk⟩, holds⟩
      refine ⟨⟨listed relists ?_, isChunk⟩, holds⟩
      rwa [cleared_holdsChunk state cleared name]
  rw [intactChunks, intactChunks, List.countP_eq_length_filter, List.countP_eq_length_filter,
    same.length_eq]

theorem cleared_corruptChunks {again : List String} : after.corruptChunks hemera again = [] := by
  refine List.filter_eq_nil_iff.mpr fun name member => ?_
  have isChunk : (strBytes name).length = 64 := of_decide_eq_true (List.mem_filter.mp member).2
  rw [state]
  exact Bool.eq_false_iff.mp (cleared.not_damaged lists isChunk)

end Cleared

/-- An audit removes damaged chunks and nothing else, whether or not it gets through. It
fails only at a damaged chunk whose removal is denied; otherwise it counts the intact and
the damaged chunks, and the next audit finds the intact ones and no others. -/
theorem audit_removes_damaged_only (hemera : Hemera) (node : SyncNode) (entries : List String)
    (dir : node.tree.node node.state.chunksDir = some .dir)
    (lists : ChunkStore.Lists node.tree node.state.chunksDir entries) :
    let damaged := node.corruptChunks hemera entries
    let intact := node.intactChunks hemera entries
    let (outcome, after) := audit hemera entries node
    after.state = node.state ∧
    (∀ place, after.tree.node place = node.tree.node place ∨
      after.tree.node place = none ∧ place ∈ damaged.map (· :: node.state.chunksDir)) ∧
    (outcome = .ok (intact, damaged.length) ∧
        (∀ name ∈ damaged, after.tree.has (name :: node.state.chunksDir) = false) ∧
        (∀ again, ChunkStore.Lists after.tree after.state.chunksDir again →
          (audit hemera again after).1 = .ok (intact, 0)) ∨
      outcome = .err Fault.denied.text ∧
        ∃ name ∈ damaged, node.tree.obstacle (name :: node.state.chunksDir) = some .denied) := by
  intro damaged intact
  obtain ⟨outcome, after, gone, run, state, before, cleared, ended⟩ :=
    audit_cases hemera dir lists
  rw [run]
  refine ⟨state, fun place => ?_, ?_⟩
  · rw [cleared.nodes]
    split_ifs with removed
    · exact .inr ⟨rfl, List.map_subset _ before.subset removed⟩
    · exact .inl rfl
  · rcases ended with ⟨returned, rfl⟩ | failed
    · refine .inl ⟨returned, fun name member => ?_, fun again relists => ?_⟩
      · rw [FileTree.has, cleared.nodes, if_pos (List.mem_map_of_mem member)]
        rfl
      · have still : after.tree.node after.state.chunksDir = some .dir := by
          rw [state, cleared.nodes, if_neg, dir]
          intro removed
          obtain ⟨name, -, same⟩ := List.mem_map.mp removed
          exact List.cons_ne_self _ _ same
        obtain ⟨second, last, _, rerun, -, -, -, ⟨rfl, -⟩ | ⟨-, name, member, -⟩⟩ :=
          audit_cases hemera still relists
        · rw [rerun, cleared_intactChunks lists state cleared relists,
            cleared_corruptChunks lists state cleared]
          rfl
        · rw [cleared_corruptChunks lists state cleared] at member
          cases member
    · exact .inr failed

/-- Whatever has become of the chunk files of a node: an audit and a `sync_with` with the node
that wrote a file, both of which return, leave it able to read the file without any peer. -/
theorem audited_node_heals (hemera : Hemera) (printed : hemera.toHex = hexText)
    (nebu : Nebu) (lawful : nebu.Lawful) (merkle : HemeraTree) (json : WireJson) (now : UInt64)
    (name : String) (data : List UInt8) (writer written : SyncNode)
    (bound : writer.state.n ≤ 2 ^ 32) (alone : writer.state.peers = [])
    (put : putFile hemera nebu merkle json.toJson now name data writer = (.ok (), written))
    (small : ∀ hash ∈ fileHashes hemera nebu writer.state data, ∀ bytes,
      written.tree.node (hash :: written.state.chunksDir) = some (.file bytes) →
        bytes.length < 2 ^ 32)
    (reader audited synced : SyncNode) (entries : List String)
    (lists : ChunkStore.Lists reader.tree reader.state.chunksDir entries)
    (ready : Ready (fileHashes hemera nebu writer.state data) reader) (report : Nat × Nat)
    (audit : audit hemera entries reader = (.ok report, audited)) (peer : String)
    (exchange : Exchange) (response : RegistryResponse)
    (settled : settleResponse hemera json.toJson peer exchange response audited = (.ok (), synced))
    (answers : ∀ wanted ∈ exchange.wanted synced.state.registry, exchange.answers wanted.2 =
      fetchChunkFromPeer (written.handleConnection hemera json.toJson (chunkRequest wanted.1)))
    (registered : synced.state.registry.get name =
      some (putEntry hemera nebu merkle writer.state now name data))
    (free : hemera.CollisionFree
      (atHand (shardsOf nebu writer.state data) synced fun _ _ => none)) :
    (getFile hemera nebu (fun _ _ => none) name synced).1 = .ok data := by
  obtain ⟨-, state, cleared⟩ := audit_ok ready.dir lists audit
  have chunks : ∀ hash ∈ fileHashes hemera nebu writer.state data, (strBytes hash).length = 64 := by
    intro hash member
    obtain ⟨shard, -, rfl⟩ := List.mem_map.mp member
    rw [chunkName, printed, strBytes_hexText]
  exact synced_file_needs_no_peer hemera printed nebu lawful merkle json now name data writer written
    bound alone put small audited synced peer exchange response settled answers registered
    (cleared_intact lists state cleared ready chunks) free

section Example

def loneEntry : FileEntry :=
  putEntry .truncating naiveNebu .truncating home.state 5 "notes" [7]

def loneHash : String := hexText (Hemera.truncating.hash lone)

theorem chunksTree_dir : chunksTree.node ["chunks"] = some .dir := rfl

theorem chunksTree_empty (name : String) : chunksTree.node [name, "chunks"] = none := by
  rw [chunksTree, FileTree.update_node, Function.update_of_ne (by simp)]
  rfl

/-- A node that knows of no file and of one peer, with one chunk file that is damaged. -/
def rotten : SyncNode where
  state := { home.state with peers := ["home"] }
  tree := chunksTree.update loneHash ["chunks"] (some (.file [9])) chunksTree_dir
    (by simp [chunksTree_empty])

theorem rotten_node : rotten.tree.node =
    Function.update chunksTree.node [loneHash, "chunks"] (some (.file [9])) := rfl

def cleansed : SyncNode := (audit .truncating [loneHash] rotten).2

def loneExchange : Exchange := offering loneEntry (rootOf loneEntry) (some lone)

def loneResponse : RegistryResponse := ⟨GSet.new.insert loneEntry, rootOf loneEntry⟩

theorem rotten_file {place : Location} {bytes : List UInt8}
    (file : rotten.tree.node place = some (.file bytes)) :
    place = [loneHash, "chunks"] ∧ bytes = [9] := by
  rw [rotten_node, Function.update_apply] at file
  split_ifs at file with here
  · cases file
    exact ⟨here, rfl⟩
  · exact absurd file (chunksTree_no_file _ _)

theorem rotten_lists : ChunkStore.Lists rotten.tree rotten.state.chunksDir [loneHash] where
  complete name := by
    change (rotten.tree.node [name, "chunks"]).isSome = true ↔ _
    rw [List.mem_singleton, rotten_node, Function.update_apply, chunksTree_empty]
    split_ifs with here
    · exact iff_of_true rfl (List.cons.inj here).1
    · exact iff_of_false (by simp) fun same => here (by rw [same])
  plain name member := by
    rw [List.mem_singleton.mp member]
    exact hexText_plain _
  distinct := List.nodup_singleton _

theorem rotten_ready (hashes : List String) (named : ∀ hash ∈ hashes, hash = loneHash) :
    Ready hashes rotten where
  dir := by
    change rotten.tree.node ["chunks"] = _
    rw [rotten_node, Function.update_of_ne (by simp), chunksTree_dir]
  room hash member := rfl
  leaf hash member := by
    rw [named hash member]
    change rotten.tree.node [loneHash, "chunks"] ≠ _
    rw [rotten_node, Function.update_self]
    simp

theorem rotten_audited : audit .truncating [loneHash] rotten = (.ok (0, 1), cleansed) := by
  have counted : (audit .truncating [loneHash] rotten).1 = .ok (0, 1) := by decide +kernel
  exact Action.eq_of_fst_ok counted

theorem cleansed_cleared : cleansed.state = rotten.state ∧
    ChunkStore.Cleared rotten.state.chunksDir (rotten.corruptChunks .truncating [loneHash])
      rotten.tree cleansed.tree :=
  (audit_ok (rotten_ready [] (by simp)).dir rotten_lists rotten_audited).2

theorem audit_removes_damaged_only_rotten :
    (audit .truncating [loneHash] rotten).2.tree.node [loneHash, "chunks"] =
        rotten.tree.node [loneHash, "chunks"] ∨
      (audit .truncating [loneHash] rotten).2.tree.node [loneHash, "chunks"] = none := by
  have audited := audit_removes_damaged_only .truncating rotten [loneHash]
    (rotten_ready [] (by simp)).dir rotten_lists
  exact (audited.2.1 [loneHash, "chunks"]).imp_right And.left

theorem lone_written :
    (putFile .truncating naiveNebu .truncating unary.toJson 5 "notes" [7] home).1 = .ok () ∧
      (putFile .truncating naiveNebu .truncating unary.toJson 5 "notes" [7] home).2.tree.node
        (loneHash :: (putFile .truncating naiveNebu .truncating unary.toJson 5 "notes" [7]
          home).2.state.chunksDir) = some (.file lone) := by
  rw [naiveNebu_eq]
  decide +kernel

theorem loneEntry_hashes : loneEntry.shardHashes = [loneHash, loneHash] := lone_hashes

theorem loneEntry_valid (registry : GSet) (unknown : registry = .new) :
    registry.validatedInsertAt .truncating 1000 loneEntry = .ok (registry.insert loneEntry) := by
  have validated : loneEntry.validateAt .truncating 1000 = .ok () := by
    have named : loneEntry.shardHashes.isEmpty = false := by
      rw [loneEntry_hashes]
      rfl
    have hashed : loneEntry.verifyHash .truncating = true := beq_self_eq_true _
    have fits : loneEntry.overruns .truncating 1000 = false := by
      have inRange : decide (2 ^ 64 ≤ (1000 : UInt64).toNat + maxClockDriftMs) = false := by decide
      rw [FileEntry.overruns, inRange, Bool.and_false]
    have early : ¬ loneEntry.timestamp.toNat > (1000 : UInt64).toNat + maxClockDriftMs := by
      change ¬ (5 : UInt64).toNat > _
      decide
    rw [FileEntry.validateAt_eq, fits, FileEntry.validate, named, hashed, if_neg early]
    rfl
  rw [GSet.validatedInsertAt, validated, unknown]
  rfl

theorem lone_readings : loneExchange.readings loneResponse = [(loneEntry, 1000)] := rfl

theorem cleansed_registry : cleansed.state.registry = .new := by
  rw [cleansed_cleared.1]
  rfl

theorem lone_inserted : GSet.validatedMergeAt .truncating (loneExchange.readings loneResponse) (0, 0)
    cleansed.state.registry = (.ok (1, 0), GSet.new.insert loneEntry) := by
  rw [lone_readings, cleansed_registry, GSet.validatedMergeAt]
  simp only [loneEntry_valid .new rfl]
  rfl

theorem loneHash_named (wanted : String × Nat)
    (listed : wanted ∈ loneExchange.wanted (GSet.new.insert loneEntry)) : wanted.1 = loneHash := by
  change wanted ∈ (loneEntry.shardHashes ++ []).zipIdx at listed
  rw [loneEntry_hashes] at listed
  simp at listed
  rcases listed with rfl | rfl <;> rfl

theorem cleansed_intact : Intact .truncating [loneHash]
    { cleansed with state.registry := GSet.new.insert loneEntry } := by
  obtain ⟨state, cleared⟩ := cleansed_cleared
  have intact : Intact .truncating [loneHash] cleansed := by
    refine cleared_intact rotten_lists state cleared (rotten_ready _ (by simp)) ?_
    intro hash member
    rw [List.mem_singleton.mp member, loneHash, strBytes_hexText]
  exact ⟨intact.dir, intact.room, intact.clean⟩

theorem lone_settled : (settleResponse .truncating unary.toJson "home" loneExchange loneResponse
    cleansed).1 = .ok () := by
  have saving : (saveRegistry unary.toJson
      { cleansed with state.registry := GSet.new.insert loneEntry }).1 = .ok () := by
    rw [loneEntry, naiveNebu_eq]
    decide +kernel
  have saved := Action.eq_of_fst_ok saving
  rw [settleResponse_run rfl (merge_run lone_inserted) saved (cleansed_registry ▸ Nat.zero_le _)]
  refine fetches_return rfl ((saveRegistry_keeping saved).intact cleansed_intact) ?_
  intro wanted listed
  rw [loneHash_named wanted listed]
  refine ⟨List.mem_singleton_self _, hexText_plain _, fun bytes answer => ?_⟩
  cases answer
  exact beq_self_eq_true _

theorem lone_registry : (settleResponse .truncating unary.toJson "home" loneExchange loneResponse
    cleansed).2.state.registry = GSet.new.insert loneEntry :=
  (settleResponse_ok rfl unary_lawful (Action.eq_of_fst_ok lone_settled)).2.trans
    (congrArg Prod.snd lone_inserted)

theorem lone_registered : (settleResponse .truncating unary.toJson "home" loneExchange loneResponse
    cleansed).2.state.registry.get "notes" = some loneEntry := by
  rw [lone_registry]
  exact GSet.get_insert_of_absent rfl rfl

theorem served_lone {written : SyncNode}
    (file : written.tree.node (loneHash :: written.state.chunksDir) = some (.file lone)) :
    fetchChunkFromPeer (written.handleConnection .truncating unary.toJson (chunkRequest loneHash)) =
      some lone := by
  have width : lone.length = 8 := rfl
  exact fetchChunk_served _ file (by omega)

theorem lone_answers : ∀ wanted ∈ loneExchange.wanted (settleResponse .truncating unary.toJson "home"
      loneExchange loneResponse cleansed).2.state.registry,
    loneExchange.answers wanted.2 = fetchChunkFromPeer
      ((putFile .truncating naiveNebu .truncating unary.toJson 5 "notes" [7]
        home).2.handleConnection .truncating unary.toJson (chunkRequest wanted.1)) := by
  intro wanted listed
  rw [lone_registry] at listed
  rw [loneHash_named wanted listed]
  exact (served_lone lone_written.2).symm

/-- The audit has taken the damaged file away. -/
theorem cleansed_no_file {place : Location} {bytes : List UInt8} :
    cleansed.tree.node place ≠ some (.file bytes) := by
  intro file
  have standing := cleansed_cleared.2.nodes place
  rw [file] at standing
  split_ifs at standing with gone
  obtain ⟨rfl, rfl⟩ := rotten_file standing.symm
  exact gone (by decide +kernel)

theorem lone_free : Hemera.truncating.CollisionFree (atHand (shardsOf naiveNebu home.state [7])
    (settleResponse .truncating unary.toJson "home" loneExchange loneResponse cleansed).2
    fun _ _ => none) := by
  have settled := Action.eq_of_fst_ok lone_settled
  set synced := (settleResponse .truncating unary.toJson "home" loneExchange loneResponse cleansed).2
  have files : synced.tree.Holding ({lone} ∪ {unary.pretty synced.state.registry}) :=
    settleResponse_files rfl (fun _ _ answer => (Option.some.inj answer).symm)
      (fun found => absurd found cleansed_no_file) settled
  set registry := synced.state.registry
  -- The text of a registry ends with a full stop, the chunk with a zero.
  have apart : Hemera.truncating.hash lone ≠ Hemera.truncating.hash (unary.pretty registry) := by
    intro same
    have lanes := congrArg (fun digest : Particle => digest[0]) same
    have ascii := strokes_ascii (registryNumbers registry)
    have last : (unary.pretty registry).reverse.getD 0 0 = 46 := by
      change (strBytes (String.ofList (strokes (registryNumbers registry)))).reverse.getD 0 0 = 46
      rw [strBytes_ascii (by rwa [String.toList_ofList]), String.toList_ofList, strokes,
        List.map_append, List.reverse_append]
      rfl
    simp only [Hemera.truncating, Particle.padded, Vector.getElem_ofFn, last] at lanes
    revert lanes
    decide +kernel
  refine (Hemera.collisionFree_of_apart apart).mono ?_
  rintro bytes ((⟨shard, member, rfl⟩ | ⟨place, file⟩) | ⟨index, peer, answered⟩)
  · exact .inl (lone_bytes shard member)
  · exact files file
  · cases answered

theorem audited_node_heals_rotten : (getFile .truncating naiveNebu (fun _ _ => none) "notes"
    (settleResponse .truncating unary.toJson "home" loneExchange loneResponse cleansed).2).1 =
      .ok [7] := by
  have named : ∀ hash ∈ fileHashes .truncating naiveNebu home.state [7], hash = loneHash := by
    intro hash listed
    rw [lone_hashes] at listed
    simpa [loneHash] using listed
  refine audited_node_heals .truncating rfl naiveNebu naiveNebu_lawful .truncating unary 5 "notes" [7]
    home _ (by decide) rfl (Action.eq_of_fst_ok lone_written.1) ?_ rotten cleansed _ [loneHash] rotten_lists
    (rotten_ready _ named) _ rotten_audited "home" loneExchange loneResponse
    (Action.eq_of_fst_ok lone_settled) lone_answers lone_registered lone_free
  intro hash listed bytes file
  rw [named hash listed, lone_written.2] at file
  cases file
  decide

end Example

end SyncNode

end Foculus.Sync

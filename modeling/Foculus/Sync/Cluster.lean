import Foculus.Sync.Requests

namespace Foculus.Sync

open Data Erasure Store

/-! # Nodes that synchronise with each other (`src/node.rs`)

A cluster is any number of nodes, each with its memory and its files, and the registry
responses that have been received and not yet merged.  `sync_with` and a round of
`background_sync` are two steps, the request and what follows once the response is
there, so every step of every node can come in between.  A step leaves behind what its
call leaves behind, also when the call fails or aborts.
-/

/-- What the nodes are built on; `foreign` is the text of the errors of the transport. -/
structure Platform where
  hemera : Hemera
  nebu : Nebu
  merkle : HemeraTree
  json : WireJson
  foreign : String

structure Cluster (ι : Type) where
  nodes : ι → SyncNode
  responses : Nat → Option (ι × RegistryResponse)

/-- A step of a node.  `settle` is what `sync_with` does with a response, `round` what
`background_sync` does with it, `load` is how `background_sync` begins, and `remove` is
the removal of one entry of the chunks directory by `gc` or `audit`. -/
inductive ClusterEvent (ι : Type) where
  | put (place : ι) (now : UInt64) (name : String) (data : List UInt8)
  | delete (place : ι) (now : UInt64) (name : String)
  | get (place : ι) (fetch : Nat → Nat → Option (List UInt8)) (name : String)
  | remove (place : ι) (name : String)
  | request (label : Nat) (place peer : ι)
  | settle (label : Nat) (peer : String) (exchange : Exchange)
  | round (label : Nat) (exchange : Exchange)
  | load (place : ι) (disk : Walk)
  | restart (place : ι)

namespace Cluster

variable {ι : Type} [DecidableEq ι]

def act {α : Type} (cluster : Cluster ι) (place : ι) (action : Action SyncNode String α) :
    Cluster ι :=
  { cluster with nodes := Function.update cluster.nodes place (action (cluster.nodes place)).2 }

/-- The response of one request and nothing of other tasks: these have their own steps. -/
def handed (exchange : Exchange) (response : RegistryResponse) : Exchange :=
  { exchange with response := .ok response, meanwhile := id }

def request (platform : Platform) (cluster : Cluster ι) (label : Nat) (place peer : ι) :
    Cluster ι :=
  match fetchRegistryWithProof platform.json platform.foreign
    ((cluster.nodes peer).handleConnection platform.hemera platform.json.toJson
      registryRequest) with
  | .ok response =>
      { cluster with
        responses := Function.update cluster.responses label (some (place, response)) }
  | .error _ => cluster

/-- A response is given to the call that waits for it. -/
def deliver (cluster : Cluster ι) (label : Nat)
    (call : RegistryResponse → Action SyncNode String Unit) : Cluster ι :=
  match cluster.responses label with
  | some (place, response) =>
      { cluster.act place (call response) with
        responses := Function.update cluster.responses label none }
  | none => cluster

/-- The calls that were waiting for a response are gone. -/
def restart (json : Json) (cluster : Cluster ι) (place : ι) : Cluster ι :=
  match SyncNode.loadRegistry json (cluster.nodes place) with
  | some registry =>
      { nodes := Function.update cluster.nodes place
          { cluster.nodes place with state.registry := registry }
        responses := fun label => (cluster.responses label).filter (·.1 ≠ place) }
  | none => cluster

def step (platform : Platform) (cluster : Cluster ι) : ClusterEvent ι → Cluster ι
  | .put place now name data => cluster.act place
      (SyncNode.putFile platform.hemera platform.nebu platform.merkle platform.json.toJson now name
        data)
  | .delete place now name => cluster.act place
      (SyncNode.deleteFile platform.hemera platform.json.toJson now name)
  | .get place fetch name => cluster.act place
      (SyncNode.getFile platform.hemera platform.nebu fetch name)
  | .remove place name => cluster.act place
      (SyncNode.onTree (FileTree.removeFile
        (name :: (cluster.nodes place).state.chunksDir)))
  | .request label place peer => cluster.request platform label place peer
  | .settle label peer exchange => cluster.deliver label
      (SyncNode.settleResponse platform.hemera platform.json.toJson peer exchange)
  | .round label exchange => cluster.deliver label fun response =>
      SyncNode.backgroundRound platform.hemera platform.json.toJson (handed exchange response)
  | .load place disk => cluster.act place (SyncNode.mergeFromDisk platform.json.toJson disk)
  | .restart place => cluster.restart platform.json.toJson place

def run (platform : Platform) (cluster : Cluster ι) (events : List (ClusterEvent ι)) : Cluster ι :=
  events.foldl (step platform) cluster

/-- The entry that a step hands to the registry of its node. -/
def writes (platform : Platform) (cluster : Cluster ι) : ClusterEvent ι → Option FileEntry
  | .put place now name data => some
      (SyncNode.putEntry platform.hemera platform.nebu platform.merkle (cluster.nodes place).state
        now name data)
  | .delete place now name =>
      ((cluster.nodes place).state.registry.getRaw name).map fun existing =>
        SyncNode.tombstone platform.hemera (cluster.nodes place).state existing name now
  | _ => none

def written (platform : Platform) (cluster : Cluster ι) :
    List (ClusterEvent ι) → List FileEntry
  | [] => []
  | event :: rest =>
      (cluster.writes platform event).toList ++ (cluster.step platform event).written platform rest

/-- An entry is somewhere in the cluster: in the memory of a node, in its stored
registry, or in a response. -/
inductive Holds (json : Json) (cluster : Cluster ι) (entry : FileEntry) : Prop where
  | memory (place : ι) (held : entry ∈ (cluster.nodes place).state.registry.values)
  | stored (place : ι) (registry : GSet)
      (loaded : SyncNode.loadRegistry json (cluster.nodes place) = some registry)
      (held : entry ∈ registry.values)
  | underway (label : Nat) (place : ι) (response : RegistryResponse)
      (received : cluster.responses label = some (place, response))
      (held : entry ∈ response.registry.values)

end Cluster

/-! ## What a step can do to a node -/

/-- The later registry is the earlier one with known entries merged in. -/
def Learns (known : Set FileEntry) (earlier later : GSet) : Prop :=
  ∃ order : List FileEntry, (∀ entry ∈ order, entry ∈ known) ∧ later = earlier.merge order

section Learns

variable {known : Set FileEntry} {first second third : GSet} {entry : FileEntry}

theorem Learns.refl (registry : GSet) : Learns known registry registry :=
  ⟨[], by simp, rfl⟩

theorem Learns.trans (early : Learns known first second) (late : Learns known second third) :
    Learns known first third := by
  obtain ⟨front, frontKnown, rfl⟩ := early
  obtain ⟨back, backKnown, rfl⟩ := late
  refine ⟨front ++ back, ?_, ?_⟩
  · intro entry member
    exact (List.mem_append.mp member).elim (frontKnown entry) (backKnown entry)
  · exact (List.foldl_append ..).symm

theorem Learns.one (known : Set FileEntry) (member : entry ∈ known) (registry : GSet) :
    Learns known registry (registry.insert entry) :=
  ⟨[entry], by simpa using member, rfl⟩

theorem Learns.rank_le (learns : Learns known first second) (name : String) :
    first.rank name ≤ second.rank name := by
  obtain ⟨order, -, rfl⟩ := learns
  exact (GSet.merge_evolves _ _).rank_le name

theorem Learns.mem (learns : Learns known first second) (held : entry ∈ second.values) :
    entry ∈ first.values ∨ entry ∈ known := by
  obtain ⟨order, all, rfl⟩ := learns
  obtain ⟨name, found⟩ := GSet.mem_values.mp held
  rcases first.merge_held order name with same | ⟨winner, member, -, -, won⟩
  · exact .inl (GSet.mem_values.mpr ⟨name, same ▸ found⟩)
  · cases won.symm.trans found
    exact .inr (all _ member)

theorem Learns.keyed (keyed : first.Keyed) (learns : Learns known first second) :
    second.Keyed := by
  obtain ⟨order, -, rfl⟩ := learns
  exact GSet.merge_keyed keyed order

end Learns

/-- What a call does to a node that is handed the known entries: it merges some of
them, and `registry.json` is untouched, or holds the registry as it was at some moment,
or is damaged because the device was full. -/
structure Moves (json : Json) (known : Set FileEntry) (node after : SyncNode) : Prop where
  state : after.state = { node.state with registry := after.state.registry }
  obstacle : after.tree.obstacle = node.tree.obstacle
  learns : Learns known node.state.registry after.state.registry
  stored : SyncNode.loadRegistry json after = SyncNode.loadRegistry json node ∨
    (∃ saved, SyncNode.loadRegistry json after = some saved ∧
      Learns known node.state.registry saved ∧ Learns known saved after.state.registry) ∨
    (∃ written, node.tree.obstacle node.registryPath = some (.full written)) ∧
      ∀ saved, SyncNode.loadRegistry json after = some saved → saved = .new

section Moves

variable {json : Json} {known : Set FileEntry} {node between after : SyncNode}

theorem Moves.refl (node : SyncNode) : Moves json known node node :=
  ⟨rfl, rfl, .refl _, .inl rfl⟩

theorem Moves.path (moves : Moves json known node after) :
    after.registryPath = node.registryPath := by
  rw [SyncNode.registryPath, moves.state]

theorem Moves.trans (early : Moves json known node between) (late : Moves json known between after) :
    Moves json known node after := by
  refine ⟨?_, late.obstacle.trans early.obstacle, early.learns.trans late.learns, ?_⟩
  · rw [late.state, early.state]
  · rcases late.stored with same | ⟨saved, loaded, before, behind⟩ | ⟨full, damaged⟩
    · rw [same]
      rcases early.stored with still | ⟨saved, loaded, before, behind⟩ | damaged
      · exact .inl still
      · exact .inr (.inl ⟨saved, loaded, before, behind.trans late.learns⟩)
      · exact .inr (.inr damaged)
    · exact .inr (.inl ⟨saved, loaded, early.learns.trans before, behind⟩)
    · rw [early.obstacle, early.path] at full
      exact .inr (.inr ⟨full, damaged⟩)

theorem Moves.mono {more : Set FileEntry} (subset : known ⊆ more)
    (moves : Moves json known node after) : Moves json more node after := by
  have learnsMore : ∀ {earlier later : GSet}, Learns known earlier later →
      Learns more earlier later := fun ⟨order, all, same⟩ =>
    ⟨order, fun entry member => subset (all entry member), same⟩
  refine ⟨moves.state, moves.obstacle, learnsMore moves.learns, ?_⟩
  refine moves.stored.imp_right (Or.imp_left ?_)
  rintro ⟨saved, loaded, before, behind⟩
  exact ⟨saved, loaded, learnsMore before, learnsMore behind⟩

/-- A call of small moves is a move. -/
theorem keeps_moves {α : Type} {action : Action SyncNode String α}
    (small : ∀ node, Moves json known node (action node).2) :
    action.Keeps (Moves json known node) :=
  fun between early => early.trans (small between)

/-- A registry in memory that takes in known entries. -/
theorem Moves.learn {registry : GSet} (learns : Learns known node.state.registry registry) :
    Moves json known node { node with state.registry := registry } :=
  ⟨rfl, rfl, learns, .inl (SyncNode.loadRegistry_congr rfl rfl)⟩

/-- A change of the files that leaves `registry.json` alone. -/
theorem Moves.files {tree : FileTree} (obstacle : tree.obstacle = node.tree.obstacle)
    (same : tree.node node.registryPath = node.tree.node node.registryPath) :
    Moves json known node { node with tree } :=
  ⟨rfl, obstacle, .refl _, .inl (SyncNode.loadRegistry_congr rfl same)⟩

end Moves

/-! ## The calls -/

namespace SyncNode

variable {hemera : Hemera} {json : WireJson} {known : Set FileEntry} {node : SyncNode}

theorem onTree_snd {α : Type} (action : Action FileTree Fault α) (node : SyncNode) :
    (onTree action node).2 = { node with tree := (action node.tree).2 } := by
  simp only [onTree]
  split
  all_goals rename_i called; rw [called]

/-- A call on an entry of the chunks directory leaves `registry.json` alone. -/
theorem chunk_moves {α : Type} {action : Action FileTree Fault α} (name : String)
    (touches : FileTree.Touches (name :: node.state.chunksDir) node.tree (action node.tree).2) :
    Moves json.toJson known node (onTree action node).2 := by
  rw [onTree_snd]
  refine Moves.files touches.obstacle (touches.elsewhere _ ?_)
  intro same
  have lengths := congrArg List.length same
  simp [registryPath, SharedState.chunksDir] at lengths

theorem writeChunk_moves {name : String} (plain : FileTree.Plain name) (bytes : List UInt8)
    (node : SyncNode) : Moves json.toJson known node (writeChunk name bytes node).2 := by
  rw [writeChunk, Action.get_bind]
  exact chunk_moves name (plain.writePath_touches _ _ _)

theorem removeChunk_moves (name : String) (node : SyncNode) : Moves json.toJson known node
    (onTree (FileTree.removeFile (name :: node.state.chunksDir)) node).2 :=
  chunk_moves name (FileTree.removeFile_touches _ _)

/-- Once the file is written a restart loads the registry, and of a file that is cut it
makes an empty registry or none. -/
theorem saveRegistry_moves (lawful : json.Lawful) (node : SyncNode) :
    Moves json.toJson known node (saveRegistry json.toJson node).2 := by
  have touches := FileTree.write_touches node.registryPath (json.pretty node.state.registry) node.tree
  rw [saveRegistry, Action.get_bind, onTree_snd]
  refine ⟨rfl, touches.obstacle, .refl _, ?_⟩
  rcases FileTree.write_cases node.registryPath (json.pretty node.state.registry) node.tree with
    ⟨after, written, -, -⟩ | ⟨fault, written⟩ | ⟨fault, room, after, written, full, -, content⟩
  · refine .inr (.inl ⟨_, ?_, .refl _, .refl _⟩)
    refine loadRegistry_of_saved lawful.toLawful ?_
    rw [saveRegistry, Action.get_bind, onTree, written]
  · rw [written]
    exact .inl rfl
  · rw [written]
    have here : after.node node.registryPath =
        some (.file ((json.pretty node.state.registry).take room)) := by
      rw [content, Function.update_self]
    by_cases cut : room < (json.pretty node.state.registry).length
    · refine .inr (.inr ⟨⟨room, full⟩, fun saved loaded => ?_⟩)
      have unread := lawful.registry_cut node.state.registry room cut
      simp only [loadRegistry, FileTree.has, FileTree.read, registryPath, here,
        Option.isSome_some, if_true] at loaded
      obtain ⟨text, decoded, rfl⟩ := Option.map_eq_some_iff.mp loaded
      rw [decoded, Option.bind_some] at unread
      rw [unread, Option.getD_none]
    · rw [List.take_of_length_le (not_lt.mp cut)] at here
      obtain ⟨text, decoded, parsed⟩ := Option.bind_eq_some_iff.mp
        (lawful.reads_back node.state.registry)
      refine .inr (.inl ⟨_, ?_, .refl _, .refl _⟩)
      simp only [loadRegistry, FileTree.has, FileTree.read, registryPath, here, decoded,
        Option.isSome_some, if_true, Option.map_some, parsed, Option.getD_some]

variable {nebu : Nebu} {merkle : HemeraTree} {now : UInt64} {name : String} {data : List UInt8}
  {exchange : Exchange} {response : RegistryResponse}

theorem storeShards_moves (printed : hemera.toHex = hexText) (placement : List Nat) (alone : Bool)
    (shards : List Shard) (node : SyncNode) :
    Moves json.toJson known node (storeShards hemera placement alone shards node).2 := by
  have kept : (storeShards hemera placement alone shards).Keeps (Moves json.toJson known node) := by
    induction shards with
    | nil => exact Action.keeps_pure _
    | cons shard rest ih =>
        refine Action.keeps_bind (Action.keeps_when (keeps_moves ?_)) fun _ =>
          Action.keeps_bind ih fun _ => Action.keeps_pure _
        rw [printed]
        exact writeChunk_moves (hexText_plain _) _
  exact kept node (.refl node)

theorem register_moves {entry : FileEntry} (member : entry ∈ known) (node : SyncNode) :
    Moves json.toJson known node (node.register entry) :=
  .learn (.one known member node.state.registry)

theorem putFile_moves (printed : hemera.toHex = hexText) (lawful : json.Lawful)
    (member : putEntry hemera nebu merkle node.state now name data ∈ known) :
    Moves json.toJson known node
      (putFile hemera nebu merkle json.toJson now name data node).2 := by
  rw [putFile, Action.get_bind]
  cases coded : encode nebu data node.state.k node.state.n with
  | none => exact .refl node
  | some shards =>
      have made : shardsOf nebu node.state data = shards := by
        rw [shardsOf, coded, Option.getD_some]
      rw [Action.expect_some_bind]
      rcases stored : storeShards hemera
        (capacityWeightedPlacement node.state.n node.state.peerCapacities) node.state.peers.isEmpty
        shards node with ⟨outcome, between⟩
      have moved : Moves json.toJson known node _ := storeShards_moves printed
        (capacityWeightedPlacement node.state.n node.state.peerCapacities) node.state.peers.isEmpty
        shards node
      rw [stored] at moved
      cases outcome with
      | err error => rwa [Action.bind_err stored]
      | panic => rwa [Action.bind_panic stored]
      | ok hashes =>
          obtain ⟨rfl, -⟩ := storeShards_ok stored
          rw [Action.bind_ok stored, Action.modify_bind]
          rw [putEntry, made] at member
          exact (moved.trans (register_moves member between)).trans (saveRegistry_moves lawful _)

theorem deleteFile_moves (lawful : json.Lawful)
    (member : ∀ existing, node.state.registry.getRaw name = some existing →
      tombstone hemera node.state existing name now ∈ known) :
    Moves json.toJson known node (deleteFile hemera json.toJson now name node).2 := by
  rw [deleteFile, Action.get_bind]
  cases held : node.state.registry.getRaw name with
  | none => exact .refl node
  | some existing =>
      dsimp only
      split_ifs
      · exact .refl node
      · rw [Action.modify_bind]
        exact (register_moves (member existing held) node).trans (saveRegistry_moves lawful _)

theorem merge_moves (held : ∀ entry ∈ response.registry.values, entry ∈ known)
    (node : SyncNode) : Moves json.toJson known node (merge hemera exchange response node).2 := by
  refine Moves.learn ⟨GSet.accepted hemera (exchange.readings response) node.state.registry, ?_,
    GSet.validatedMergeAt_eq_merge _ _ _⟩
  intro entry member
  obtain ⟨⟨other, clock⟩, read, rfl⟩ :=
    List.mem_map.mp ((GSet.accepted_sublist _ _).subset member)
  obtain ⟨⟨_, turn⟩, walked, same⟩ := List.mem_map.mp read
  cases same
  exact held _ ((exchange.received.iterates _).mem_iff.mp (List.fst_mem_of_mem_zipIdx walked))

theorem fetchChunk_moves (printed : hemera.toHex = hexText) (warns : Bool)
    (answers : Nat → Option (List UInt8)) (wanted : String × Nat) (node : SyncNode) :
    Moves json.toJson known node (fetchChunk hemera warns answers wanted node).2 := by
  rw [fetchChunk, Action.get_bind]
  cases node.tree.resolve node.state.chunksDir wanted.1 with
  | some place => exact .refl node
  | none =>
      cases answers wanted.2 with
      | none => exact .refl node
      | some bytes =>
          dsimp only
          split_ifs with verified
          · refine writeChunk_moves ?_ bytes node
            rw [← eq_of_beq verified, printed]
            exact hexText_plain _
          · exact Action.keeps_when (Action.keeps_lift _) node (.refl node)

theorem fetches_move (printed : hemera.toHex = hexText) (warns : Bool)
    (answers : Nat → Option (List UInt8)) (wanted : List (String × Nat)) :
    (Action.each (fetchChunk hemera warns answers) wanted).Keeps (Moves json.toJson known node) :=
  Action.keeps_each fun item _ => keeps_moves (fetchChunk_moves printed warns answers item)

theorem settleResponse_moves (printed : hemera.toHex = hexText) (lawful : json.Lawful)
    (peer : String) (held : ∀ entry ∈ response.registry.values, entry ∈ known) (node : SyncNode) :
    Moves json.toJson known node
      (settleResponse hemera json.toJson peer exchange response node).2 := by
  refine Action.keeps_ite ?_ ?_ node (.refl node)
  · exact Action.keeps_bind (Action.keeps_lift _) fun _ =>
      Action.keeps_bind (Action.keeps_lift _) fun _ => Action.keeps_lift _
  · refine Action.keeps_bind Action.keeps_get fun before =>
      Action.keeps_bind (keeps_moves (merge_moves held)) fun _ =>
      Action.keeps_bind Action.keeps_get fun after =>
      Action.keeps_bind (keeps_moves (saveRegistry_moves lawful)) fun _ =>
      Action.keeps_bind (Action.keeps_lift _) fun _ => fetches_move printed _ _ _

theorem backgroundRound_moves (printed : hemera.toHex = hexText) (lawful : json.Lawful)
    (held : ∀ entry ∈ response.registry.values, entry ∈ known) (node : SyncNode) :
    Moves json.toJson known node
      (backgroundRound hemera json.toJson (Cluster.handed exchange response) node).2 := by
  rw [backgroundRound, Cluster.handed]
  dsimp only
  rw [Action.modify_bind]
  refine Action.keeps_ite (Action.keeps_pure ()) ?_ node (.refl node)
  refine Action.keeps_bind Action.keeps_get fun before =>
    Action.keeps_bind (keeps_moves (merge_moves held)) fun _ =>
    Action.keeps_bind Action.keeps_get fun after =>
    Action.keeps_bind (Action.keeps_lift _) fun _ =>
    Action.keeps_bind (Action.keeps_when (keeps_moves (saveRegistry_moves lawful))) fun _ =>
    fetches_move printed _ _ _

theorem mergeFromDisk_moves (disk : Walk)
    (held : ∀ stored, loadRegistry json.toJson node = some stored →
      ∀ entry ∈ stored.values, entry ∈ known) :
    Moves json.toJson known node (mergeFromDisk json.toJson disk node).2 := by
  by_cases returns : ∃ after, mergeFromDisk json.toJson disk node = (.ok (), after)
  · obtain ⟨after, called⟩ := returns
    obtain ⟨stored, loaded, rfl⟩ := mergeFromDisk_ok called
    rw [called]
    refine Moves.learn ⟨disk.order stored, fun entry member => ?_, rfl⟩
    exact held stored loaded entry ((disk.iterates stored).mem_iff.mp member)
  · -- Only the last step changes anything, and it returns.
    rw [mergeFromDisk, Action.get_bind] at returns ⊢
    split_ifs at returns ⊢ with present
    · rw [Action.lift_bind] at returns ⊢
      generalize Outcome.ofExcept
        ((node.tree.read ("registry.json" :: node.state.dataDir)).mapError Fault.text) = reading
        at returns ⊢
      cases reading with
      | err error => exact .refl node
      | panic => exact .refl node
      | ok bytes =>
          dsimp only at returns ⊢
          rw [Action.lift_bind] at returns ⊢
          generalize parseRegistry json.toJson bytes = parsing at returns ⊢
          cases parsing with
          | err error => exact .refl node
          | panic => exact .refl node
          | ok parsed => exact absurd ⟨_, rfl⟩ returns
    · exact .refl node

section Get

variable {expectedHash : String}

theorem tryLocal_moves (plain : FileTree.Plain expectedHash) (node : SyncNode) :
    Moves json.toJson known node (tryLocal hemera expectedHash node).2 := by
  rw [tryLocal, Action.get_bind]
  cases resolved : node.tree.resolve node.state.chunksDir expectedHash with
  | none => exact .refl node
  | some place =>
      cases plain.resolve_eq resolved
      refine Action.keeps_bind (Action.keeps_lift _) (fun bytes =>
        Action.keeps_ite (Action.keeps_pure _) (Action.keeps_bind (Action.keeps_lift _) fun _ =>
          Action.keeps_bind ?_ fun _ => Action.keeps_pure _)) node (.refl node)
      intro between early
      have dir : between.state.chunksDir = node.state.chunksDir := by
        rw [early.state, SharedState.chunksDir, SharedState.chunksDir]
      rw [← dir]
      exact early.trans (removeChunk_moves expectedHash between)

theorem tryPeers_moves (printed : hemera.toHex = hexText) (answers : List (Option (List UInt8))) :
    (tryPeers hemera expectedHash answers).Keeps (Moves json.toJson known node) := by
  induction answers with
  | nil => exact Action.keeps_pure _
  | cons answer rest ih =>
      cases answer with
      | none => exact ih
      | some bytes =>
          rw [tryPeers]
          split_ifs with verified
          · refine Action.keeps_bind (keeps_moves ?_) fun _ => Action.keeps_pure _
            refine writeChunk_moves ?_ bytes
            rw [← eq_of_beq verified, printed]
            exact hexText_plain _
          · exact Action.keeps_bind (Action.keeps_lift _) fun _ => ih

theorem gather_moves (printed : hemera.toHex = hexText)
    (answers : Nat → List (Option (List UInt8))) (k : Nat) {pending : List (String × Nat)}
    (plain : ∀ wanted ∈ pending, FileTree.Plain wanted.1) (found : List Shard) :
    (gather hemera answers k found pending).Keeps (Moves json.toJson known node) := by
  induction pending generalizing found with
  | nil => exact Action.keeps_pure _
  | cons wanted rest ih =>
      refine Action.keeps_bind (Action.keeps_bind
        (keeps_moves (tryLocal_moves (plain wanted (.head _)))) ?_) fun bytes =>
          Action.keeps_ite (Action.keeps_pure _) (ih (fun other later => plain other (.tail _ later)) _)
      rintro (_ | bytes)
      · exact tryPeers_moves printed _
      · exact Action.keeps_pure _

/-- The names of the chunks decide what `get_file` may remove. -/
theorem getFile_moves (printed : hemera.toHex = hexText) (fetch : Nat → Nat → Option (List UInt8))
    (plain : ∀ entry ∈ node.state.registry.values, ∀ hash ∈ entry.shardHashes,
      FileTree.Plain hash) :
    Moves json.toJson known node (getFile hemera nebu fetch name node).2 := by
  rw [getFile, Action.get_bind]
  cases found : node.state.registry.get name with
  | none => exact .refl node
  | some entry =>
      have member : entry ∈ node.state.registry.values :=
        GSet.mem_values.mpr ⟨name, (Option.filter_eq_some_iff.mp found).1⟩
      refine Action.keeps_bind (gather_moves printed _ entry.k ?_ []) (fun shards =>
        Action.keeps_ite (Action.keeps_lift _) (Action.keeps_lift _)) node (.refl node)
      intro wanted walked
      exact plain entry member _ (List.fst_mem_of_mem_zipIdx walked)

end Get

end SyncNode

end Foculus.Sync

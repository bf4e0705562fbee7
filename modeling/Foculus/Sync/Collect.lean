import Foculus.Store.Convergence
import Foculus.Sync.Files

namespace Foculus.Sync

open Data Erasure Store

/-! # Garbage collection next to writes (`gc`, `put_file` and `sync_with` in `src/node.rs`)

`put_file` and `sync_with` hold the write lock from start to end.  `gc` takes its
snapshot of the live hashes under the read lock, gives the lock back and then
lists and removes files, so every write of the other two can come in between.
One step is one access to the registry or to a file.
-/

/-- A running `gc`: before it has listed the directory, and while it goes through the list. -/
inductive Collector where
  | snapshotted (live : List String)
  | removing (live pending : List String)

/-- The call that holds the write lock: `put_file` with the chunks still to be
written, a call that has changed the registry and is about to save it, or
`sync_with` with the hashes still to be looked for. -/
inductive Writer where
  | storing (chunks : List (String × List UInt8)) (entry : FileEntry)
  | saving (hashes : Option (List String))
  | fetching (hashes : List String)

structure System where
  node : SyncNode
  collectors : List Collector
  writer : Option Writer

inductive Event where
  | snapshot
  | list (gc : Nat) (names : List String)
  | remove (gc : Nat)
  | put (now : UInt64) (name : String) (data : List UInt8)
  | store
  | save
  | sync (now : Nat) (remote walk : List FileEntry)
  | fetch (answer : Option (List UInt8))

namespace System

def live (system : System) : List String := system.node.state.registry.liveShardHashes

def hasChunk (system : System) (name : String) : Bool :=
  system.node.tree.has (name :: system.node.state.chunksDir)

def snapshot (system : System) : Option System :=
  match system.writer with
  | none => some { system with collectors := system.collectors ++ [.snapshotted system.live] }
  | some _ => none

/-- `read_dir`, restricted to the names of 64 bytes; an entry that cannot be read is left out. -/
def list (system : System) (gc : Nat) (names : List String) : Option System :=
  match system.collectors[gc]? with
  | some (.snapshotted live) =>
      if names.all fun name => system.hasChunk name && (strBytes name).length == 64 then
        some { system with collectors := system.collectors.set gc (.removing live names) }
      else none
  | _ => none

/-- One round of the loop in `ChunkStore::gc`; an error ends it. -/
def remove (system : System) (gc : Nat) : Option System :=
  match system.collectors[gc]? with
  | some (.removing live (name :: rest)) =>
      if name ∈ live ∨ system.hasChunk name = false then
        some { system with collectors := system.collectors.set gc (.removing live rest) }
      else match FileTree.removeFile (name :: system.node.state.chunksDir) system.node.tree with
        | (.ok _, tree) =>
            some { system with
              node.tree := tree
              collectors := system.collectors.set gc (.removing live rest) }
        | (_, tree) =>
            some { system with
              node.tree := tree
              collectors := system.collectors.set gc (.removing live []) }
  | _ => none

/-- The chunks that `put_file` keeps here. -/
def keptChunks (hemera : Hemera) (state : SharedState) (shards : List Shard) :
    List (String × List UInt8) :=
  let placement := capacityWeightedPlacement state.n state.peerCapacities
  (shards.filter fun shard =>
    placement.getD shard.index 0 = 0 ∨ state.peers.isEmpty = true).map fun shard =>
      (chunkName hemera shard, shardToBytes shard)

def put (hemera : Hemera) (nebu : Nebu) (merkle : HemeraTree) (system : System) (now : UInt64)
    (name : String) (data : List UInt8) : Option System :=
  let state := system.node.state
  match system.writer, encode nebu data state.k state.n with
  | none, some shards =>
      some { system with writer := some (.storing (keptChunks hemera state shards)
        (SyncNode.putEntry hemera nebu merkle state now name data)) }
  | _, _ => none

/-- The next chunk of `put_file`, and the entry once there is none left. -/
def store (system : System) : Option System :=
  match system.writer with
  | some (.storing [] entry) =>
      some { system with node := system.node.register entry, writer := some (.saving none) }
  | some (.storing ((hex, bytes) :: rest) entry) =>
      match SyncNode.writeChunk hex bytes system.node with
      | (.ok _, node) => some { system with node, writer := some (.storing rest entry) }
      | (_, node) => some { system with node, writer := none }
  | _ => none

def save (json : Json) (system : System) : Option System :=
  match system.writer with
  | some (.saving hashes) =>
      match SyncNode.saveRegistry json system.node with
      | (.ok _, node) => some { system with node, writer := hashes.map .fetching }
      | (_, node) => some { system with node, writer := none }
  | _ => none

/-- `sync_with` once the registry of the peer has arrived: `remote` is the order in
which its entries are merged, `walk` that in which the merged entries are visited. -/
def sync (hemera : Hemera) (system : System) (now : Nat) (remote walk : List FileEntry) :
    Option System :=
  let registry := (system.node.state.registry.validatedMerge hemera now remote).1
  match system.writer with
  | none =>
      if walk.isPerm registry.values then
        some { system with
          node.state.registry := registry
          writer := some (.saving (some (walk.flatMap FileEntry.shardHashes))) }
      else none
  | some _ => none

/-- The next hash of `sync_with`, and the answer of the peer to it. -/
def fetch (hemera : Hemera) (system : System) (answer : Option (List UInt8)) : Option System :=
  match system.writer with
  | some (.fetching []) => some { system with writer := none }
  | some (.fetching (hash :: rest)) =>
      let next := { system with writer := some (.fetching rest) }
      if (system.node.tree.resolve system.node.state.chunksDir hash).isSome then some next
      else match answer with
        | none => some next
        | some bytes =>
            if verifyChunk hemera bytes hash then
              match SyncNode.writeChunk hash bytes system.node with
              | (.ok _, node) => some { next with node }
              | (_, node) => some { system with node, writer := none }
            else match SyncNode.sliced hash with
              | .ok _ => some next
              | _ => some { system with writer := none }
  | _ => none

def step (hemera : Hemera) (nebu : Nebu) (merkle : HemeraTree) (json : Json) (system : System) :
    Event → Option System
  | .snapshot => system.snapshot
  | .list gc names => system.list gc names
  | .remove gc => system.remove gc
  | .put now name data => system.put hemera nebu merkle now name data
  | .store => system.store
  | .save => system.save json
  | .sync now remote walk => system.sync hemera now remote walk
  | .fetch answer => system.fetch hemera answer

def run (hemera : Hemera) (nebu : Nebu) (merkle : HemeraTree) (json : Json) (system : System)
    (events : List Event) : Option System :=
  events.foldlM (step hemera nebu merkle json) system

end System

section Live

theorem mem_liveShardHashes {registry : GSet} {hash : String} :
    hash ∈ registry.liveShardHashes ↔ ∃ name entry, registry.getRaw name = some entry ∧
      entry.deleted = false ∧ hash ∈ entry.shardHashes := by
  simp only [GSet.liveShardHashes, List.mem_flatMap, List.mem_filter, GSet.mem_values, GSet.getRaw]
  constructor
  · intro listed
    obtain ⟨entry, ⟨⟨name, held⟩, kept⟩, member⟩ := listed
    exact ⟨name, entry, held, by simpa using kept, member⟩
  · intro live
    obtain ⟨name, entry, held, kept, member⟩ := live
    exact ⟨entry, ⟨⟨name, held⟩, by simpa using kept⟩, member⟩

end Live

namespace System

variable {hemera : Hemera} {nebu : Nebu} {merkle : HemeraTree} {json : Json}
  {system after : System} {event : Event}

section States

theorem onTree_state {α : Type} (action : Action FileTree Fault α) (node : SyncNode) :
    (SyncNode.onTree action node).2.state = node.state := by
  simp only [SyncNode.onTree]
  split <;> rfl

theorem writeChunk_state (hex : String) (bytes : List UInt8) (node : SyncNode) :
    (SyncNode.writeChunk hex bytes node).2.state = node.state := by
  rw [SyncNode.writeChunk, Action.get_bind]
  exact onTree_state _ node

theorem saveRegistry_state (json : Json) (node : SyncNode) :
    (SyncNode.saveRegistry json node).2.state = node.state := by
  rw [SyncNode.saveRegistry, Action.get_bind]
  exact onTree_state _ node

end States

/-- The registry that a step leaves. -/
def nextRegistry (hemera : Hemera) (system : System) : Event → GSet
  | .store =>
      match system.writer with
      | some (.storing [] entry) => system.node.state.registry.insert entry
      | _ => system.node.state.registry
  | .sync now remote _ => (system.node.state.registry.validatedMerge hemera now remote).1
  | _ => system.node.state.registry

/-- The step makes the registry hold this entry, which it did not hold before. -/
def Registers (hemera : Hemera) (system : System) (event : Event) (entry : FileEntry) : Prop :=
  ∃ name, (system.nextRegistry hemera event).getRaw name = some entry ∧
    system.node.state.registry.getRaw name ≠ some entry

/-- The chunk is on the list of a running `gc` and not in its snapshot. -/
def Doomed (system : System) (hash : String) : Prop :=
  ∃ (gc : Nat) (live pending : List String),
    system.collectors[gc]? = some (.removing live pending) ∧ hash ∈ pending ∧ hash ∉ live

section Writers

theorem store_spec (hemera : Hemera) (stored : system.store = some after) :
    after.collectors = system.collectors ∧
      after.node.state.registry = system.nextRegistry hemera .store := by
  simp only [store] at stored
  split at stored
  · rename_i entry writing
    cases stored
    refine ⟨rfl, ?_⟩
    simp only [nextRegistry, writing]
    rfl
  · rename_i hex bytes rest entry writing
    have same := writeChunk_state hex bytes system.node
    rcases called : SyncNode.writeChunk hex bytes system.node with ⟨outcome, node⟩
    rw [called] at same
    cases outcome <;>
    · simp only [called] at stored
      cases stored
      refine ⟨rfl, ?_⟩
      simp only [nextRegistry, writing]
      exact congrArg SharedState.registry same
  · cases stored

theorem save_spec (saved : system.save json = some after) :
    after.collectors = system.collectors ∧ after.node.state = system.node.state := by
  have same := saveRegistry_state json system.node
  rcases called : SyncNode.saveRegistry json system.node with ⟨outcome, node⟩
  rw [called] at same
  simp only [save] at saved
  split at saved
  · cases outcome <;>
    · simp only [called] at saved
      cases saved
      exact ⟨rfl, same⟩
  · cases saved

theorem fetch_spec {answer : Option (List UInt8)}
    (fetched : system.fetch hemera answer = some after) :
    after.collectors = system.collectors ∧ after.node.state = system.node.state := by
  simp only [fetch] at fetched
  split at fetched
  · cases fetched
    exact ⟨rfl, rfl⟩
  · rename_i hash rest writing
    split_ifs at fetched
    · cases fetched
      exact ⟨rfl, rfl⟩
    · split at fetched
      · cases fetched
        exact ⟨rfl, rfl⟩
      · rename_i bytes
        have same := writeChunk_state hash bytes system.node
        rcases called : SyncNode.writeChunk hash bytes system.node with ⟨outcome, node⟩
        rw [called] at same
        split_ifs at fetched
        · cases outcome <;>
          · simp only [called] at fetched
            cases fetched
            exact ⟨rfl, same⟩
        · split at fetched <;>
          · cases fetched
            exact ⟨rfl, rfl⟩
  · cases fetched

theorem put_spec {now : UInt64} {name : String} {data : List UInt8}
    (started : system.put hemera nebu merkle now name data = some after) :
    after.collectors = system.collectors ∧ after.node = system.node := by
  simp only [put] at started
  split at started
  · cases started
    exact ⟨rfl, rfl⟩
  · cases started

theorem sync_spec {now : Nat} {remote walk : List FileEntry}
    (synced : system.sync hemera now remote walk = some after) :
    after.collectors = system.collectors ∧ after.node.state.registry =
      (system.node.state.registry.validatedMerge hemera now remote).1 := by
  simp only [sync] at synced
  split at synced
  · split_ifs at synced
    cases synced
    exact ⟨rfl, rfl⟩
  · cases synced

end Writers

section Collectors

theorem snapshot_spec (taken : system.snapshot = some after) :
    after.node = system.node ∧
      after.collectors = system.collectors ++ [.snapshotted system.live] := by
  simp only [snapshot] at taken
  split at taken
  · cases taken
    exact ⟨rfl, rfl⟩
  · cases taken

theorem list_spec {gc : Nat} {names : List String} (listed : system.list gc names = some after) :
    ∃ live, system.collectors[gc]? = some (.snapshotted live) ∧ after.node = system.node ∧
      after.collectors = system.collectors.set gc (.removing live names) := by
  simp only [list] at listed
  split at listed
  · rename_i live found
    split_ifs at listed
    cases listed
    exact ⟨live, found, rfl, rfl⟩
  · cases listed

/-- A removal goes on with the list or ends it, and the only chunk it can delete
is the first on the list, when that is not in the snapshot. -/
theorem remove_spec {gc : Nat} (removed : system.remove gc = some after) :
    ∃ live name rest left, system.collectors[gc]? = some (.removing live (name :: rest)) ∧
      after.collectors = system.collectors.set gc (.removing live left) ∧ left ⊆ name :: rest ∧
      after.node.state = system.node.state ∧
      ∀ other, system.hasChunk other = true → after.hasChunk other = false →
        other = name ∧ name ∉ live := by
  simp only [remove] at removed
  split at removed
  · rename_i live name rest found
    -- Whatever the call on the file returns, it takes away this file at most.
    have onlyFirst : ∀ tree, (FileTree.removeFile (name :: system.node.state.chunksDir)
        system.node.tree).2 = tree → ∀ other, system.hasChunk other = true →
        tree.has (other :: system.node.state.chunksDir) = false → other = name := by
      rintro tree rfl other present gone
      by_contra different
      rcases FileTree.removeFile_cases (name :: system.node.state.chunksDir) system.node.tree with
        ⟨fault, failed⟩ | ⟨after, succeeded, updated⟩
      · rw [failed, ← hasChunk, present] at gone
        cases gone
      · rw [succeeded, FileTree.has, updated, Function.update_of_ne (by simpa using different),
          ← FileTree.has, ← hasChunk, present] at gone
        cases gone
    split_ifs at removed with kept
    · cases removed
      refine ⟨live, name, rest, rest, found, rfl, List.subset_cons_self _ _, rfl, ?_⟩
      intro other present gone
      cases present.symm.trans gone
    · have outside : name ∉ live := fun member => kept (.inl member)
      split at removed
      · rename_i called
        cases removed
        refine ⟨live, name, rest, rest, found, rfl, List.subset_cons_self _ _, rfl, ?_⟩
        exact fun other present gone =>
          ⟨onlyFirst _ (congrArg Prod.snd called) other present gone, outside⟩
      · rename_i called
        cases removed
        refine ⟨live, name, rest, [], found, rfl, by simp, rfl, ?_⟩
        exact fun other present gone =>
          ⟨onlyFirst _ (congrArg Prod.snd called) other present gone, outside⟩
  · cases removed

end Collectors

section Invariant

theorem step_registry (stepped : system.step hemera nebu merkle json event = some after) :
    after.node.state.registry = system.nextRegistry hemera event := by
  have same : after.node.state = system.node.state →
      after.node.state.registry = system.node.state.registry := congrArg SharedState.registry
  cases event with
  | snapshot => exact same (congrArg SyncNode.state (snapshot_spec stepped).1)
  | list gc names =>
      obtain ⟨_, -, node, -⟩ := list_spec stepped
      exact same (congrArg SyncNode.state node)
  | remove gc =>
      obtain ⟨_, _, _, _, -, -, -, state, -⟩ := remove_spec stepped
      exact same state
  | put now name data => exact same (congrArg SyncNode.state (put_spec stepped).2)
  | store => exact (store_spec hemera stepped).2
  | save => exact same (save_spec stepped).2
  | sync now remote walk => exact (sync_spec stepped).2
  | fetch answer => exact same (fetch_spec stepped).2

/-- A chunk comes into use only when an entry that refers to it is registered. -/
theorem step_live (stepped : system.step hemera nebu merkle json event = some after)
    {hash : String} (member : hash ∈ after.live) :
    hash ∈ system.live ∨ ∃ entry, system.Registers hemera event entry ∧
      entry.deleted = false ∧ hash ∈ entry.shardHashes := by
  rw [live, step_registry stepped] at member
  obtain ⟨name, entry, held, kept, refers⟩ := mem_liveShardHashes.mp member
  by_cases before : system.node.state.registry.getRaw name = some entry
  · exact .inl (mem_liveShardHashes.mpr ⟨name, entry, before, kept, refers⟩)
  · exact .inr ⟨entry, ⟨name, held, before⟩, kept, refers⟩

theorem doomed_of_collectors_eq (same : after.collectors = system.collectors) {hash : String}
    (doomed : after.Doomed hash) : system.Doomed hash := by
  obtain ⟨gc, live, pending, found, member⟩ := doomed
  exact ⟨gc, live, pending, same ▸ found, member⟩

theorem doomed_of_set {gc : Nat} {live names : List String}
    (collectors : after.collectors = system.collectors.set gc (.removing live names))
    {hash : String} (doomed : after.Doomed hash) :
    system.Doomed hash ∨ (hash ∈ names ∧ hash ∉ live) := by
  obtain ⟨other, otherLive, pending, found, member, outside⟩ := doomed
  rw [collectors, List.getElem?_set] at found
  split_ifs at found with here bound
  · cases found
    exact .inr ⟨member, outside⟩
  · exact .inl ⟨other, otherLive, pending, found, member, outside⟩

/-- A chunk comes onto a list only when the list is made. -/
theorem step_doomed (stepped : system.step hemera nebu merkle json event = some after)
    {hash : String} (doomed : after.Doomed hash) :
    system.Doomed hash ∨ ∃ gc names live, event = .list gc names ∧
      system.collectors[gc]? = some (.snapshotted live) ∧ hash ∈ names ∧ hash ∉ live := by
  cases event with
  | snapshot =>
      obtain ⟨gc, live, pending, found, member⟩ := doomed
      rw [(snapshot_spec stepped).2, List.getElem?_append] at found
      split_ifs at found with earlier
      · exact .inl ⟨gc, live, pending, found, member⟩
      · cases List.mem_singleton.mp (List.mem_of_getElem? found)
  | list gc names =>
      obtain ⟨live, snapshotted, -, collectors⟩ := list_spec stepped
      rcases doomed_of_set collectors doomed with before | ⟨member, outside⟩
      · exact .inl before
      · exact .inr ⟨gc, names, live, rfl, snapshotted, member, outside⟩
  | remove gc =>
      obtain ⟨live, name, rest, left, removing, collectors, fewer, -⟩ := remove_spec stepped
      rcases doomed_of_set collectors doomed with before | ⟨member, outside⟩
      · exact .inl before
      · exact .inl ⟨gc, live, name :: rest, removing, fewer member, outside⟩
  | put now name data => exact .inl (doomed_of_collectors_eq (put_spec stepped).1 doomed)
  | store => exact .inl (doomed_of_collectors_eq (store_spec hemera stepped).1 doomed)
  | save => exact .inl (doomed_of_collectors_eq (save_spec stepped).1 doomed)
  | sync now remote walk => exact .inl (doomed_of_collectors_eq (sync_spec stepped).1 doomed)
  | fetch answer => exact .inl (doomed_of_collectors_eq (fetch_spec stepped).1 doomed)

/-- No chunk that a `gc` is about to remove is in use. -/
def Clear (system : System) : Prop := ∀ hash, system.Doomed hash → hash ∉ system.live

/-- What the steps have to respect: no live entry is registered that refers to a
chunk on the list of a running `gc` and outside its snapshot, and no `gc` lists a
chunk that came into use after its snapshot. -/
structure Respects (hemera : Hemera) (system : System) (event : Event) : Prop where
  registers_spared : ∀ entry, system.Registers hemera event entry → entry.deleted = false →
    ∀ hash ∈ entry.shardHashes, ¬ system.Doomed hash
  lists_known : ∀ gc names live, event = .list gc names →
    system.collectors[gc]? = some (.snapshotted live) →
    ∀ name ∈ names, name ∈ system.live → name ∈ live

theorem step_clear (respects : system.Respects hemera event)
    (stepped : system.step hemera nebu merkle json event = some after) (clear : system.Clear) :
    after.Clear := by
  intro hash doomed member
  rcases step_doomed stepped doomed with before | ⟨gc, names, live, rfl, snapshotted, named, outside⟩
  · rcases step_live stepped member with used | ⟨entry, registered, kept, new⟩
    · exact clear hash before used
    · exact respects.registers_spared entry registered kept hash new before
  · rcases step_live stepped member with used | ⟨entry, ⟨name, held, new⟩, -⟩
    · exact outside (respects.lists_known gc names live rfl snapshotted hash named used)
    · exact absurd held new

/-- The systems reached by steps that respect the condition. -/
inductive Reached (hemera : Hemera) (nebu : Nebu) (merkle : HemeraTree) (json : Json)
    (start : System) : System → Prop
  | start : Reached hemera nebu merkle json start start
  | step {system after : System} {event : Event} :
      Reached hemera nebu merkle json start system → system.Respects hemera event →
      system.step hemera nebu merkle json event = some after →
      Reached hemera nebu merkle json start after

theorem reached_clear {start : System} (idle : start.collectors = [])
    (reached : Reached hemera nebu merkle json start system) : system.Clear := by
  induction reached with
  | start =>
      intro hash doomed
      obtain ⟨gc, live, pending, found, -⟩ := doomed
      simp [idle] at found
  | step _ respects stepped ih => exact step_clear respects stepped ih

end Invariant

/-- In every interleaving whose steps respect the condition, a chunk that a
removal deletes is not referred to by a live entry at that moment. -/
theorem removal_spares_live (hemera : Hemera) (nebu : Nebu) (merkle : HemeraTree) (json : Json)
    (start system after : System) (idle : start.collectors = [])
    (reached : Reached hemera nebu merkle json start system) (gc : Nat)
    (removed : system.step hemera nebu merkle json (.remove gc) = some after) (name : String)
    (present : system.hasChunk name = true) (gone : after.hasChunk name = false) :
    name ∉ system.node.state.registry.liveShardHashes := by
  obtain ⟨live, first, rest, left, removing, -, -, -, only⟩ := remove_spec removed
  obtain ⟨rfl, outside⟩ := only name present gone
  exact reached_clear idle reached name ⟨gc, live, name :: rest, removing, by simp, outside⟩

section Uninterrupted

variable {node between : SyncNode} {collectors : List Collector} {entry : FileEntry}

/-- The steps of the loop of `put_file`, taken one after the other, are the loop. -/
theorem run_storeShards {shards : List Shard} {hashes : List String} {state : SharedState}
    (stored : SyncNode.storeShards hemera
      (capacityWeightedPlacement state.n state.peerCapacities) state.peers.isEmpty shards node =
        (.ok hashes, between)) :
    ∃ count, run hemera nebu merkle json
      ⟨node, collectors, some (.storing (keptChunks hemera state shards) entry)⟩
      (List.replicate count .store) = some ⟨between, collectors, some (.storing [] entry)⟩ := by
  induction shards generalizing node hashes with
  | nil =>
      cases stored
      exact ⟨0, rfl⟩
  | cons shard rest ih =>
      obtain ⟨_, later, kept, continuing⟩ := Action.bind_eq_ok_iff.mp stored
      obtain ⟨_, _, storing, returned⟩ := Action.bind_eq_ok_iff.mp continuing
      cases returned
      obtain ⟨count, ran⟩ := ih storing
      rw [Action.when] at kept
      split_ifs at kept with here
      · refine ⟨count + 1, ?_⟩
        have chunks : keptChunks hemera state (shard :: rest) =
            (chunkName hemera shard, shardToBytes shard) :: keptChunks hemera state rest := by
          rw [keptChunks, List.filter_cons, if_pos (by simpa using here)]
          rfl
        have written : SyncNode.writeChunk (chunkName hemera shard) (shardToBytes shard) node =
            (.ok (), later) := kept
        rw [chunks, List.replicate_succ, run, List.foldlM_cons, step, store]
        simp only [written]
        exact ran
      · cases kept
        refine ⟨count, ?_⟩
        have chunks : keptChunks hemera state (shard :: rest) = keptChunks hemera state rest := by
          rw [keptChunks, List.filter_cons, if_neg (by simpa using here)]
          rfl
        rw [chunks]
        exact ran

/-- A `put_file` that no other call interrupts is a run of its steps. -/
theorem run_putFile (collectors : List Collector) {now : UInt64} {name : String}
    {data : List UInt8} {later : SyncNode}
    (returned : SyncNode.putFile hemera nebu merkle json now name data node = (.ok (), later)) :
    ∃ count, run hemera nebu merkle json ⟨node, collectors, none⟩
      (.put now name data :: (List.replicate count .store ++ [.store, .save])) =
        some ⟨later, collectors, none⟩ := by
  obtain ⟨coded, hashes, between, stored, saved⟩ := SyncNode.putFile_steps returned
  obtain ⟨count, ran⟩ := run_storeShards stored
  refine ⟨count, ?_⟩
  rw [run] at ran ⊢
  rw [List.foldlM_cons, step, put]
  simp only [coded]
  rw [Option.bind_eq_bind, Option.bind_some, List.foldlM_append, ran]
  simp [step, store, save, saved]

/-- The `put_file` that holds the write lock is about to register the entry. -/
def Storing (collectors : List Collector) (entry : FileEntry) (system : System) : Prop :=
  system.collectors = collectors ∧
    ∀ chunks other, system.writer = some (.storing chunks other) → other = entry

theorem Storing.store (storing : Storing collectors entry system)
    (stored : system.store = some after) : Storing collectors entry after := by
  refine ⟨(store_spec .truncating stored).1.trans storing.1, ?_⟩
  intro chunks other writing
  simp only [System.store] at stored
  split at stored
  · cases stored
    cases writing
  · rename_i hex bytes rest same held
    rcases called : SyncNode.writeChunk hex bytes system.node with ⟨outcome, node⟩
    cases outcome with
    | ok _ =>
        simp only [called] at stored
        cases stored
        cases writing
        exact storing.2 _ _ held
    | err _ =>
        simp only [called] at stored
        cases stored
        cases writing
    | panic =>
        simp only [called] at stored
        cases stored
        cases writing
  · cases stored

theorem Storing.save (storing : Storing collectors entry system)
    (saved : system.save json = some after) : Storing collectors entry after := by
  refine ⟨(save_spec saved).1.trans storing.1, ?_⟩
  intro chunks other writing
  simp only [System.save] at saved
  split at saved
  · rename_i hashes held
    rcases called : SyncNode.saveRegistry json system.node with ⟨outcome, node⟩
    cases outcome <;> simp only [called] at saved <;> cases saved
    · cases hashes <;> cases writing
    · cases writing
    · cases writing
  · cases saved

theorem respects_of_registry_eq
    (same : system.nextRegistry hemera event = system.node.state.registry)
    (unlisted : ∀ gc names, event ≠ .list gc names) : system.Respects hemera event := by
  constructor
  · rintro entry ⟨name, held, new⟩
    exact absurd (same ▸ held) new
  · exact fun gc names live listed => absurd listed (unlisted gc names)

/-- A step of `put_file` respects every `gc` that has no chunk of the file on its list. -/
theorem Storing.respects (storing : Storing collectors entry system)
    (spared : ∀ hash ∈ entry.shardHashes, ¬ system.Doomed hash) :
    system.Respects hemera .store := by
  refine ⟨?_, fun gc names live listed => nomatch listed⟩
  rintro other ⟨name, held, new⟩ -
  simp only [nextRegistry] at held
  split at held
  · rename_i last writing
    cases storing.2 _ _ writing
    rcases system.node.state.registry.getRaw_insert_cases entry name with same | ⟨-, inserted⟩
    · exact absurd (same.symm.trans held) new
    · cases inserted.symm.trans held
      exact spared
  · exact absurd held new

theorem Storing.reached {start : System} {events : List Event}
    (only : ∀ event ∈ events, event = .store ∨ event = .save)
    (storing : Storing collectors entry system)
    (spared : ∀ hash ∈ entry.shardHashes, ¬ system.Doomed hash)
    (here : Reached hemera nebu merkle json start system)
    (ran : run hemera nebu merkle json system events = some after) :
    Reached hemera nebu merkle json start after := by
  induction events generalizing system with
  | nil =>
      cases ran
      exact here
  | cons event rest ih =>
      rw [run, List.foldlM_cons] at ran
      obtain ⟨next, stepped, ranRest⟩ := Option.bind_eq_some_iff.mp ran
      have others := fun other member => only other (List.mem_cons_of_mem event member)
      rcases only event List.mem_cons_self with rfl | rfl
      · have later := storing.store stepped
        refine ih others later ?_ (.step here (storing.respects spared) stepped) ranRest
        exact fun hash member doomed => spared hash member
          (doomed_of_collectors_eq (later.1.trans storing.1.symm) doomed)
      · have later := storing.save stepped
        refine ih others later ?_ (.step here (respects_of_registry_eq rfl (by simp)) stepped) ranRest
        exact fun hash member doomed => spared hash member
          (doomed_of_collectors_eq (later.1.trans storing.1.symm) doomed)

/-- A `put_file` that no other call interrupts may run next to every `gc` that has no
chunk of the file on its list. -/
theorem reached_putFile {start : System} {now : UInt64} {name : String} {data : List UInt8}
    {later : SyncNode}
    (returned : SyncNode.putFile hemera nebu merkle json now name data node = (.ok (), later))
    (spared : ∀ hash ∈ (SyncNode.putEntry hemera nebu merkle node.state now name data).shardHashes,
      ¬ (⟨node, collectors, none⟩ : System).Doomed hash)
    (reached : Reached hemera nebu merkle json start ⟨node, collectors, none⟩) :
    Reached hemera nebu merkle json start ⟨later, collectors, none⟩ := by
  obtain ⟨count, ran⟩ := run_putFile collectors returned
  rw [run, List.foldlM_cons] at ran
  obtain ⟨next, started, ranRest⟩ := Option.bind_eq_some_iff.mp ran
  have kept := put_spec started
  have storing : Storing collectors
      (SyncNode.putEntry hemera nebu merkle node.state now name data) next := by
    refine ⟨kept.1, ?_⟩
    intro chunks other writing
    simp only [step, put] at started
    split at started
    · cases started
      cases writing
      rfl
    · cases started
  refine Storing.reached ?_ storing ?_
    (.step reached (respects_of_registry_eq rfl (by simp)) started) ranRest
  · intro event member
    rcases List.mem_append.mp member with stores | last
    · exact .inl (List.eq_of_mem_replicate stores)
    · simpa using last
  · exact fun hash member doomed => spared hash member (doomed_of_collectors_eq kept.1 doomed)

end Uninterrupted

section Example

def chunk : String := chunkName .truncating ⟨0, [7]⟩

/-- A node with a chunk that no entry refers to. -/
def littered : SyncNode :=
  { SyncNode.home with tree := (FileTree.write [chunk, "chunks"] [1] SyncNode.home.tree).2 }

/-- The node while a `gc` has the chunk on its list. -/
def listing (node : SyncNode) : System :=
  ⟨node, [.removing (⟨littered, [], none⟩ : System).live [chunk]], none⟩

/-- The other file comes with a chunk of its own. -/
theorem put_next_to_removal :
    ∃ later : SyncNode,
      SyncNode.putFile .truncating naiveNebu .truncating SyncNode.emptyJson 5 "notes" [8]
        littered = (.ok (), later) ∧
      (∀ hash ∈ (SyncNode.putEntry .truncating naiveNebu .truncating littered.state 5 "notes"
        [8]).shardHashes, hash ≠ chunk) ∧
      chunkName .truncating ⟨0, [8]⟩ ∈ later.state.registry.liveShardHashes ∧
      (listing later).hasChunk chunk = true ∧
      ((listing later).step .truncating naiveNebu .truncating SyncNode.emptyJson (.remove 0)).any
        (fun after => !after.hasChunk chunk) = true := by
  have facts : (SyncNode.putFile .truncating naiveNebu .truncating SyncNode.emptyJson 5 "notes" [8]
        littered).1 = .ok () ∧
      (∀ hash ∈ (SyncNode.putEntry .truncating naiveNebu .truncating littered.state 5 "notes"
        [8]).shardHashes, hash ≠ chunk) ∧
      chunkName .truncating ⟨0, [8]⟩ ∈ (SyncNode.putFile .truncating naiveNebu .truncating
        SyncNode.emptyJson 5 "notes" [8] littered).2.state.registry.liveShardHashes ∧
      (listing (SyncNode.putFile .truncating naiveNebu .truncating SyncNode.emptyJson 5 "notes" [8]
        littered).2).hasChunk chunk = true ∧
      ((listing (SyncNode.putFile .truncating naiveNebu .truncating SyncNode.emptyJson 5 "notes" [8]
        littered).2).step .truncating naiveNebu .truncating SyncNode.emptyJson (.remove 0)).any
          (fun after => !after.hasChunk chunk) = true := by
    rw [naiveNebu_eq]
    decide +kernel
  exact ⟨_, Action.eq_of_fst_ok facts.1, facts.2⟩

/-- While a `gc` has the chunk on its list another file is put. -/
theorem removal_spares_live_next_to_put :
    ∃ system after : System,
      Reached .truncating naiveNebu .truncating SyncNode.emptyJson ⟨littered, [], none⟩ system ∧
      SyncNode.putFile .truncating naiveNebu .truncating SyncNode.emptyJson 5 "notes" [8]
        littered = (.ok (), system.node) ∧
      chunkName .truncating ⟨0, [8]⟩ ∈ system.node.state.registry.liveShardHashes ∧
      system.step .truncating naiveNebu .truncating SyncNode.emptyJson (.remove 0) = some after ∧
      system.hasChunk chunk = true ∧ after.hasChunk chunk = false ∧
      chunk ∉ system.node.state.registry.liveShardHashes := by
  let before : System := ⟨littered, [], none⟩
  let snapshotted : System := ⟨littered, [.snapshotted before.live], none⟩
  have unused : chunk ∉ before.live ∧ snapshotted.hasChunk chunk = true ∧
      (strBytes chunk).length = 64 := by
    decide +kernel
  have lists : snapshotted.Respects .truncating (.list 0 [chunk]) := by
    constructor
    · rintro entry ⟨name, held, new⟩
      exact absurd held new
    · rintro gc names live ⟨⟩ - name member used
      cases List.mem_singleton.mp member
      exact absurd used unused.1
  have listed : snapshotted.step .truncating naiveNebu .truncating SyncNode.emptyJson
      (.list 0 [chunk]) = some (listing littered) := by
    rw [step, list]
    refine if_pos ?_
    simp [unused.2.1, unused.2.2]
  obtain ⟨later, returned, others, live, present, outcome⟩ := put_next_to_removal
  have reached : Reached .truncating naiveNebu .truncating SyncNode.emptyJson before
      (listing later) := by
    have taken : before.step .truncating naiveNebu .truncating SyncNode.emptyJson .snapshot =
        some snapshotted := rfl
    refine reached_putFile returned ?_
      (.step (.step .start (respects_of_registry_eq rfl (by simp)) taken) lists listed)
    rintro hash member ⟨gc, names, pending, found, listed, -⟩
    cases List.mem_singleton.mp (List.mem_of_getElem? found)
    exact others hash member (List.mem_singleton.mp listed)
  obtain ⟨after, removed, gone⟩ := (Option.any_eq_true _ _).mp outcome
  have gone : after.hasChunk chunk = false := by simpa using gone
  exact ⟨listing later, after, reached, returned, live, removed, present, gone,
    removal_spares_live _ _ _ _ before (listing later) after rfl reached 0 removed chunk present
      gone⟩

def events : List Event :=
  [.snapshot, .put 5 "notes" [7], .store, .store, .store, .save, .list 0 [chunk]]

/-- A file is put between the snapshot and the listing of a `gc`: its chunk is on
the list and not in the snapshot, and the next step deletes it. -/
theorem gc_deletes_live_chunk :
    ∃ system after : System,
      run .truncating naiveNebu .truncating SyncNode.emptyJson ⟨SyncNode.home, [], none⟩ events =
        some system ∧
      system.step .truncating naiveNebu .truncating SyncNode.emptyJson (.remove 0) = some after ∧
      chunk ∈ system.node.state.registry.liveShardHashes ∧
      system.hasChunk chunk = true ∧
      after.hasChunk chunk = false := by
  have outcome : (run .truncating naiveNebu .truncating SyncNode.emptyJson
      ⟨SyncNode.home, [], none⟩ events).any (fun system =>
        (system.step .truncating naiveNebu .truncating SyncNode.emptyJson (.remove 0)).any
          fun after =>
            decide (chunk ∈ system.live) &&
              system.hasChunk chunk &&
              !after.hasChunk chunk) = true := by
    rw [naiveNebu_eq]
    decide +kernel
  obtain ⟨system, reached, outcome⟩ := (Option.any_eq_true _ _).mp outcome
  obtain ⟨after, stepped, outcome⟩ := (Option.any_eq_true _ _).mp outcome
  simp only [Bool.and_eq_true, decide_eq_true_eq, Bool.not_eq_true'] at outcome
  exact ⟨system, after, reached, stepped, outcome.1.1, outcome.1.2, outcome.2⟩

end Example

end System

end Foculus.Sync

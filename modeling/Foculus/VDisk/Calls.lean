import Foculus.VDisk.Recovery

namespace Foculus.VDisk

open Data Erasure Store

/-! # Sequences of calls

A manager reached from `new` by any calls, whether they succeed or not.  The one
fact about it that matters to `put_file` is that every attached device has a
store: `attach` records the attachment first, so a device whose directory cannot
be created stays attached without one.
-/

inductive Call where
  | createDisk (config : DiskConfig)
  | attach (deviceName diskName : String) (capacity : UInt64)
  | putFile (now : UInt64) (diskName fileName : String) (data : List UInt8)
  | rechunk (stores files : Walk) (clock : String → UInt64) (diskName : String)
  | rebalance (share : UInt64 → UInt64 → UInt64 → UInt64) (files : Walk) (diskName : String)

namespace World

variable {hemera : Hemera} {nebu : Nebu} {merkle : HemeraTree}

def call (nebu : Nebu) (merkle : HemeraTree) : Call → Action (World hemera) String Unit
  | .createDisk config => createDisk config
  | .attach deviceName diskName capacity => attach deviceName diskName capacity
  | .putFile now diskName fileName data => (putFile nebu merkle now diskName fileName data).void
  | .rechunk stores files clock diskName => (rechunk nebu merkle stores files clock diskName).void
  | .rebalance share files diskName => (rebalance share files diskName).void

/-- The world after the calls, whatever each of them returned. -/
def run (nebu : Nebu) (merkle : HemeraTree) (world : World hemera) : List Call → World hemera
  | [] => world
  | first :: rest => run nebu merkle (call nebu merkle first world).2 rest

/-- Every attached device has a store. -/
def Equipped (world : World hemera) : Prop :=
  ∀ attachment ∈ world.manager.attachments, attachment.deviceName ∈ world.manager.stores

instance (world : World hemera) : Decidable world.Equipped :=
  inferInstanceAs (Decidable (∀ _ ∈ _, _ ∈ _))

/-- The call opens the stores it attaches: an `attach` to an existing disk finds
the device's store, or can create the device's directory. -/
def Opens (world : World hemera) : Call → Prop
  | .attach deviceName diskName _ =>
      diskName ∈ world.manager.disks → deviceName ∉ world.manager.stores →
        ∃ root, (FileTree.createDirAll world.manager.baseDir deviceName world.tree).1 = .ok root
  | _ => True

def AllOpen (nebu : Nebu) (merkle : HemeraTree) (world : World hemera) : List Call → Prop
  | [] => True
  | first :: rest =>
      world.Opens first ∧ AllOpen nebu merkle (call nebu merkle first world).2 rest

section Keeps

theorem putShard_equipped (deviceName : String) (shard : Shard) :
    (putShard deviceName shard : Action (World hemera) _ _).Keeps Equipped := by
  intro world equipped
  simp only [putShard]
  split
  · exact equipped
  · intro attachment member
    exact Std.ExtTreeMap.mem_insert.mpr (.inr (equipped attachment member))

theorem distribute_equipped (deviceNames : List String) (shards : List Shard) :
    (distribute deviceNames shards : Action (World hemera) _ _).Keeps Equipped := by
  induction shards with
  | nil => exact Action.keeps_pure _
  | cons shard rest ih =>
      refine Action.keeps_bind (putShard_equipped _ shard) fun hash => ?_
      exact Action.keeps_bind ih fun hashes => Action.keeps_pure _

theorem register_equipped (entry : World hemera → FileEntry) :
    (Action.modify fun world => world.register (entry world) :
      Action (World hemera) String Unit).Keeps Equipped :=
  fun _ equipped => equipped

theorem createDisk_equipped (config : DiskConfig) :
    (createDisk config : Action (World hemera) _ _).Keeps Equipped := by
  refine Action.keeps_bind Action.keeps_get fun world => ?_
  exact Action.keeps_ite (Action.keeps_lift _) fun _ equipped => equipped

theorem putFile_equipped (now : UInt64) (diskName fileName : String) (data : List UInt8) :
    (putFile nebu merkle now diskName fileName data : Action (World hemera) _ _).Keeps Equipped := by
  refine Action.keeps_bind Action.keeps_get fun world => ?_
  split
  · exact Action.keeps_lift _
  · refine Action.keeps_ite (Action.keeps_lift _) ?_
    refine Action.keeps_bind (Action.keeps_lift _) fun k => ?_
    refine Action.keeps_bind (Action.keeps_lift _) fun shards => ?_
    refine Action.keeps_bind (distribute_equipped _ shards) fun hashes => ?_
    exact Action.keeps_bind (register_equipped _) fun _ => Action.keeps_pure _

theorem rechunkFile_equipped (stores : Walk) (now : UInt64) (config : DiskConfig)
    (deviceNames : List String) (k n : Nat) (fileName : String) :
    (rechunkFile nebu merkle stores now config deviceNames k n fileName :
      Action (World hemera) _ _).Keeps Equipped := by
  refine Action.keeps_bind Action.keeps_get fun world => ?_
  split
  · exact Action.keeps_pure _
  · exact Action.keeps_lift _
  · refine Action.keeps_bind (Action.keeps_lift _) fun shards => ?_
    refine Action.keeps_bind (distribute_equipped _ shards) fun hashes => ?_
    exact Action.keeps_bind (register_equipped _) fun _ => Action.keeps_pure _

theorem rechunkFiles_equipped {rechunkFile : String → Action (World hemera) String Bool}
    (kept : ∀ fileName, (rechunkFile fileName).Keeps Equipped) (fileNames : List String) :
    (rechunkFiles rechunkFile fileNames).Keeps Equipped := by
  induction fileNames with
  | nil => exact Action.keeps_pure _
  | cons fileName rest ih =>
      refine Action.keeps_bind (kept fileName) fun rewritten => ?_
      exact Action.keeps_bind ih fun counts => Action.keeps_pure _

theorem rechunk_equipped (stores files : Walk) (clock : String → UInt64) (diskName : String) :
    (rechunk nebu merkle stores files clock diskName : Action (World hemera) _ _).Keeps
      Equipped := by
  refine Action.keeps_bind Action.keeps_get fun world => ?_
  split
  · exact Action.keeps_lift _
  · refine Action.keeps_ite (Action.keeps_pure _) ?_
    refine Action.keeps_bind (Action.keeps_lift _) fun k => ?_
    exact rechunkFiles_equipped (fun fileName =>
      rechunkFile_equipped stores (clock fileName) _ _ k _ fileName) _

theorem migrateShard_equipped (source : String) (hash : Particle) (index : Nat)
    (destinations : List String) :
    (migrateShard source hash index destinations : Action (World hemera) _ _).Keeps Equipped := by
  induction destinations with
  | nil => exact Action.keeps_pure _
  | cons destination rest ih =>
      refine Action.keeps_bind Action.keeps_get fun world => ?_
      split
      · exact ih
      · split_ifs
        · exact ih
        · split
          · exact ih
          · exact Action.keeps_bind (Action.keeps_attempt (putShard_equipped _ _)) fun _ =>
              Action.keeps_pure _

theorem migrateShards_equipped (overloaded underloaded : List String)
    (hashes : List (String × Nat)) :
    (migrateShards overloaded underloaded hashes : Action (World hemera) _ _).Keeps Equipped := by
  induction hashes with
  | nil => exact Action.keeps_pure _
  | cons first rest ih =>
      refine Action.keeps_bind Action.keeps_get fun world => ?_
      split
      · exact ih
      · split
        · exact ih
        · refine Action.keeps_bind (migrateShard_equipped _ _ _ underloaded) fun here => ?_
          exact Action.keeps_bind ih fun later => Action.keeps_pure _

theorem migrateFiles_equipped (overloaded underloaded fileNames : List String) :
    (migrateFiles overloaded underloaded fileNames : Action (World hemera) _ _).Keeps Equipped := by
  induction fileNames with
  | nil => exact Action.keeps_pure _
  | cons fileName rest ih =>
      refine Action.keeps_bind Action.keeps_get fun world => ?_
      split
      · exact ih
      · refine Action.keeps_bind (migrateShards_equipped overloaded underloaded _) fun here => ?_
        exact Action.keeps_bind ih fun later => Action.keeps_pure _

theorem rebalance_equipped (share : UInt64 → UInt64 → UInt64 → UInt64) (files : Walk)
    (diskName : String) :
    (rebalance share files diskName : Action (World hemera) _ _).Keeps Equipped := by
  refine Action.keeps_bind Action.keeps_get fun world => ?_
  refine Action.keeps_ite (Action.keeps_pure _) ?_
  exact Action.keeps_bind (Action.keeps_lift _) fun targets => migrateFiles_equipped _ _ _

end Keeps

/-- `attach` leaves the device with a store when it finds one or can open one. -/
theorem attach_equipped {world : World hemera} {deviceName diskName : String} {capacity : UInt64}
    (opens : world.Opens (.attach deviceName diskName capacity)) (equipped : world.Equipped) :
    (attach deviceName diskName capacity world).2.Equipped := by
  simp only [attach]
  split_ifs with disk present
  · intro attachment member
    rcases List.mem_append.mp member with before | new
    · exact equipped attachment before
    · cases List.mem_singleton.mp new
      exact present
  · obtain ⟨root, created⟩ := opens (by simpa using disk) (by simpa using present)
    rcases called : FileTree.createDirAll world.manager.baseDir deviceName world.tree with
      ⟨outcome, tree⟩
    rw [called] at created
    cases created
    rw [ChunkStore.new, Action.bind_ok called]
    intro attachment member
    rcases List.mem_append.mp member with before | new
    · exact Std.ExtTreeMap.mem_insert.mpr (.inr (equipped attachment before))
    · cases List.mem_singleton.mp new
      exact Std.ExtTreeMap.mem_insert_self
  · exact equipped

theorem call_equipped {world : World hemera} {first : Call} (opens : world.Opens first)
    (equipped : world.Equipped) : (call nebu merkle first world).2.Equipped := by
  cases first with
  | createDisk config => exact createDisk_equipped config world equipped
  | attach deviceName diskName capacity => exact attach_equipped opens equipped
  | putFile now diskName fileName data =>
      exact Action.keeps_void (putFile_equipped now diskName fileName data) world equipped
  | rechunk stores files clock diskName =>
      exact Action.keeps_void (rechunk_equipped stores files clock diskName) world equipped
  | rebalance share files diskName =>
      exact Action.keeps_void (rebalance_equipped share files diskName) world equipped

theorem run_equipped {world : World hemera} {calls : List Call}
    (opens : world.AllOpen nebu merkle calls) (equipped : world.Equipped) :
    (world.run nebu merkle calls).Equipped := by
  induction calls generalizing world with
  | nil => exact equipped
  | cons first rest ih => exact ih opens.2 (call_equipped opens.1 equipped)

/-- `new`, with the file system it has been called on. -/
def start (place : Location) (path : String) (tree : FileTree) : Outcome Fault (World hemera) :=
  match VDiskManager.new place path tree with
  | (.ok manager, tree) => .ok { manager, tree }
  | (.err fault, _) => .err fault
  | (.panic, _) => .panic

theorem start_equipped {place : Location} {path : String} {tree : FileTree} {world : World hemera}
    (started : start place path tree = .ok world) : world.Equipped := by
  rw [start] at started
  split at started
  · rename_i manager tree made
    cases started
    obtain ⟨root, between, -, returned⟩ := Action.bind_eq_ok_iff.mp made
    cases returned
    intro attachment member
    cases member
  · cases started
  · cases started

/-- Once every `attach` of the run has opened its store, a file that `put_file`
accepts is what `get_file` returns next, when nothing that lies under the name of
one of its shards was altered. -/
theorem put_then_get (nebu : Nebu) (lawful : nebu.Lawful) (merkle : HemeraTree)
    (printed : hemera.toHex = hexText) (place : Location) (path : String) (tree : FileTree)
    (first : World hemera) (started : start place path tree = .ok first) (calls : List Call)
    (opens : first.AllOpen nebu merkle calls) (now : UInt64) (diskName fileName : String)
    (data : List UInt8) (stores : Walk) :
    let world := first.run nebu merkle calls
    (world.manager.deviceNames diskName).length ≤ 2 ^ 32 →
    world.manager.registry.getRaw fileName = none →
    hemera.CollisionFree (world.atHand (world.shardsOf nebu diskName data)) →
    world.Intact ((world.shardsOf nebu diskName data).map (chunkName hemera)) →
    ∀ commitment after,
      putFile nebu merkle now diskName fileName data world = (.ok commitment, after) →
      after.getFile nebu stores fileName = .ok data := by
  intro world bound fresh free intact commitment after stored
  have equipped : world.Equipped := run_equipped opens (start_equipped started)
  have attached : ∀ name ∈ world.manager.deviceNames diskName, name ∈ world.manager.stores := by
    intro name member
    obtain ⟨attachment, kept, rfl⟩ := List.mem_map.mp member
    exact equipped attachment (List.mem_filter.mp kept).1
  obtain ⟨_, k, -, counted, held⟩ :=
    putFile_stored lawful printed attached bound fresh stored free (intact.read _)
  have whole : (after.lose []).available stores (world.shardsOf nebu diskName data) =
      world.shardsOf nebu diskName data := by
    rw [available, List.filter_eq_self]
    exact fun shard member => held.isSome_findShard member List.not_mem_nil
  have covers := le_nextPowerOfTwo (world.manager.deviceNames diskName).length
  have enough : k ≤ ((after.lose []).available stores
      (world.shardsOf nebu diskName data)).length := by
    rw [whole, held.codeword.length]
    omega
  exact held.getFile printed enough

theorem put_then_get_one_device :
    let calls := [.createDisk { name := "work", redundancy := .tolerate 0, shardCopies := 1 },
      .attach "laptop" "work" 0]
    let world := bareWorld.run naiveNebu .truncating calls
    start [] "" bareWorld.tree = .ok bareWorld ∧ bareWorld.AllOpen naiveNebu .truncating calls ∧
      (putFile naiveNebu .truncating 5 "work" "notes" [7] world).1.void = .ok () ∧
      (putFile naiveNebu .truncating 5 "work" "notes" [7] world).2.getFile naiveNebu .sorted
        "notes" = .ok [7] := by
  intro calls world
  have opens : bareWorld.AllOpen naiveNebu .truncating calls :=
    ⟨trivial, fun _ _ => ⟨["laptop"], by decide +kernel⟩, trivial⟩
  have returned :
      (putFile naiveNebu .truncating 5 "work" "notes" [7] world).1.void = .ok () := by
    rw [naiveNebu_eq]
    decide +kernel
  have unused : world.Unused (world.shardsOf naiveNebu "work" [7]) := by
    rw [naiveNebu_eq]
    decide +kernel
  have copies : ∀ shard ∈ world.shardsOf naiveNebu "work" [7],
      shardToBytes shard = shardToBytes ⟨0, [7]⟩ := by
    rw [naiveNebu_eq]
    decide +kernel
  obtain ⟨commitment, stored⟩ := Outcome.void_eq_ok.mp returned
  refine ⟨rfl, opens, returned, ?_⟩
  exact put_then_get naiveNebu naiveNebu_lawful .truncating rfl [] "" bareWorld.tree bareWorld rfl
    calls opens 5 "work" "notes" [7] .sorted (by decide +kernel) (by decide +kernel)
    (unused.collisionFree copies) unused.intact commitment _ (Action.eq_of_fst_ok stored)

/-- A file lies where the directory of the device would be created, so `attach`
fails.  The device stays attached: `put_file` accepts the file without storing
any of it, and `get_file` cannot return it. -/
theorem failed_attach_loses_file :
    let tree : FileTree :=
      (FileTree.write ["laptop"] [] (.bare fun _ => none)).2
    ∃ first : World Hemera.truncating, start [] "" tree = .ok first ∧
      let disk := Call.createDisk { name := "work", redundancy := .tolerate 0, shardCopies := 1 }
      let world := first.run naiveNebu .truncating [disk, .attach "laptop" "work" 0]
      let stored := putFile naiveNebu .truncating 5 "work" "notes" [7] world
      world.manager.registry.getRaw "notes" = none ∧ stored.1.void = .ok () ∧
        stored.2.getFile naiveNebu .sorted "notes" =
          .err "only 0 of 1 required shards available" := by
  intro tree
  refine ⟨{ manager := .empty [], tree }, rfl, ?_⟩
  rw [naiveNebu_eq]
  refine ⟨by decide +kernel, by decide +kernel, by decide +kernel⟩

end World

end Foculus.VDisk

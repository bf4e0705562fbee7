import Foculus.Data.Checked
import Foculus.Data.DiskUsage
import Foculus.Data.RunPrefixes
import Foculus.Store.ChunkStore
import Mathlib.Data.Set.Finite.List

namespace Foculus.Store

open Data Erasure

/-! # What a chunk store counts (`remove`, `gc` and `used` of `ChunkStore` in `src/store.rs`)

`used` starts at zero, `put` and `remove` move it by the size of the file that they
write or take away, and nothing compares it with the directory.
-/

namespace ChunkStore

variable {hemera : Hemera}

def forgotten (store : ChunkStore hemera) (hex : String) : ChunkStore hemera where
  root := store.root
  index := store.index.erase hex
  capacity := store.capacity
  used := store.used
  addressed := by
    intro other bytes found
    rw [Std.ExtTreeMap.getElem?_erase] at found
    split_ifs at found
    exact store.addressed found

def released (store : ChunkStore hemera) (size : UInt64) : ChunkStore hemera :=
  { store with used := satSub store.used size }

/-- Remove a chunk by the name of its file; the size of the file that is gone. -/
def remove (hex : String) : Action (ChunkStore hemera × FileTree) Fault UInt64 :=
  fun (store, tree) =>
    match tree.resolve store.root hex with
    | none => (.ok 0, (store.forgotten hex).released 0, tree)
    | some place =>
        let size := lenU64 (FileTree.fileSize (tree.node place))
        match FileTree.removeFile place tree with
        | (.ok _, tree) => (.ok size, (store.forgotten hex).released size, tree)
        | (.err fault, tree) => (.err fault, store, tree)
        | (.panic, tree) => (.panic, store, tree)

def gcFrom (live : List String) : List String → (removed : Nat) → (freed : UInt64) →
    Action (ChunkStore hemera × FileTree) Fault (Nat × UInt64)
  | [], removed, freed => return (removed, freed)
  | hex :: rest, removed, freed =>
      if hex ∈ live then gcFrom live rest removed freed
      else do
        let size ← remove hex
        let total ← Action.lift (.expect (fit 64 (freed.toNat + size.toNat)))
        gcFrom live rest (removed + 1) (UInt64.ofNat total)

/-- Garbage collection, with the names that `read_dir` lists. -/
def gc (live entries : List String) : Action (ChunkStore hemera × FileTree) Fault (Nat × UInt64) := do
  let (store, tree) ← Action.get
  if tree.node store.root = some .dir then
    gcFrom live (entries.filter fun name => (strBytes name).length = 64) 0 0
  else if tree.has store.root then Action.fail .notADirectory
  else Action.fail .notFound

/-! ## The files of the directory -/

theorem chunkNames_finite : {name : String | (strBytes name).length = 64}.Finite := by
  have : Finite UInt8 := Finite.of_injective UInt8.toFin fun _ _ => UInt8.toFin_inj.mp
  exact (List.finite_length_eq UInt8 64).preimage fun _ _ _ _ same => strBytes_inj same

/-- The names that chunks are recognised by: those of 64 bytes. -/
noncomputable def chunkNames : Finset String := chunkNames_finite.toFinset

theorem mem_chunkNames {name : String} : name ∈ chunkNames ↔ (strBytes name).length = 64 :=
  chunkNames_finite.mem_toFinset

/-- The size of all chunk files of the directory. -/
noncomputable def total (root : Location) (tree : FileTree) : Nat :=
  FileTree.usage chunkNames root tree

/-- The counter is the size of the chunk files. -/
def Exact (state : ChunkStore hemera × FileTree) : Prop :=
  state.1.used.toNat = total state.1.root state.2

section Steps

variable {store : ChunkStore hemera} {tree : FileTree} {shard : Shard} {hex : String}

theorem place_counted (printed : hemera.toHex = hexText) : chunkName hemera shard ∈ chunkNames := by
  rw [mem_chunkNames, chunkName, printed, strBytes_hexText]

/-- The write fails with bytes of the chunk on disk. -/
def CutShort (store : ChunkStore hemera) (tree : FileTree) (shard : Shard) : Prop :=
  ∃ fault after, FileTree.write (store.place shard) (shardToBytes shard) tree = (.err fault, after) ∧
    FileTree.fileSize (after.node (store.place shard)) ≠ 0

/-- What a write at the place of a chunk adds to the total. -/
theorem total_write (printed : hemera.toHex = hexText)
    (absent : tree.has (store.place shard) = false) {outcome : Outcome Fault Unit}
    {after : FileTree}
    (called : FileTree.write (store.place shard) (shardToBytes shard) tree = (outcome, after)) :
    total store.root after =
      total store.root tree + FileTree.fileSize (after.node (store.place shard)) := by
  have empty : tree.node (store.place shard) = none :=
    Option.not_isSome_iff_eq_none.mp (Bool.eq_false_iff.mp absent)
  obtain ⟨node, updated⟩ := FileTree.write_frame called
  have isChunk : chunkName hemera shard ∈ chunkNames := place_counted printed
  have moved := FileTree.usage_update updated isChunk
  rw [show tree.node (chunkName hemera shard :: store.root) = none from empty] at moved
  rw [updated, place, Function.update_self]
  exact moved

/-- A chunk that is written whole adds its size to the total. -/
theorem total_written (printed : hemera.toHex = hexText)
    (absent : tree.has (store.place shard) = false) {after : FileTree}
    (written : FileTree.write (store.place shard) (shardToBytes shard) tree = (.ok (), after)) :
    total store.root after = total store.root tree + (shardToBytes shard).length := by
  have added := total_write printed absent written
  rwa [FileTree.write_ok written, Function.update_self] at added

/-- What the counter comes to when the size of a chunk is added to it. -/
theorem used_add_size
    (unsaturated : store.used.toNat + (shardToBytes shard).length < 2 ^ 64) :
    (satAdd store.used (lenU64 (shardToBytes shard).length)).toNat =
      store.used.toNat + (shardToBytes shard).length := by
  have fits : (lenU64 (shardToBytes shard).length).toNat = (shardToBytes shard).length := by
    rw [lenU64_toNat]
    omega
  rw [satAdd_toNat (by rw [fits]; exact unsaturated), fits]

theorem put_exact_iff (printed : hemera.toHex = hexText) (exactly : Exact (store, tree))
    (unsaturated : store.used.toNat + (shardToBytes shard).length < 2 ^ 64) :
    Exact (put shard (store, tree)).2 ↔
      (¬ store.Over shard → tree.has (store.place shard) = false → ¬ store.CutShort tree shard) := by
  rcases put_cases shard store tree with ⟨exceeds, reason, called⟩ | ⟨-, present, called⟩ |
    ⟨room, absent, ⟨after, written, called⟩ | ⟨fault, after, written, called⟩⟩
  · rw [called]
    exact ⟨fun _ room => absurd exceeds room, fun _ => exactly⟩
  · rw [called]
    refine ⟨fun _ _ absent => ?_, fun _ => exactly⟩
    rw [present] at absent
    cases absent
  · rw [called]
    refine ⟨fun _ _ _ cut => ?_, fun _ => ?_⟩
    · obtain ⟨_, _, failed, _⟩ := cut
      cases written.symm.trans failed
    · refine (used_add_size unsaturated).trans ?_
      rw [show store.used.toNat = total store.root tree from exactly]
      exact (total_written printed absent written).symm
  · rw [called]
    have added := total_write printed absent written
    have same : Exact (store, after) ↔ FileTree.fileSize (after.node (store.place shard)) = 0 := by
      rw [Exact, show store.used.toNat = total store.root tree from exactly]
      dsimp only
      omega
    rw [same]
    constructor
    · intro none _ _ cut
      obtain ⟨_, _, failed, some⟩ := cut
      cases written.symm.trans failed
      exact some none
    · intro whole
      by_contra cut
      exact whole room absent ⟨fault, after, written, cut⟩

/-- The name leads to a file that can be removed, is not empty, and is no chunk file. -/
def Strays (store : ChunkStore hemera) (tree : FileTree) (hex : String) : Prop :=
  ∃ place, tree.resolve store.root hex = some place ∧
    (∃ after, FileTree.removeFile place tree = (.ok (), after)) ∧
    FileTree.fileSize (tree.node place) ≠ 0 ∧ ∀ name ∈ chunkNames, name :: store.root ≠ place

theorem remove_exact_iff (exactly : Exact (store, tree)) :
    Exact (remove hex (store, tree)).2 ↔ store.used = 0 ∨ ¬ store.Strays tree hex := by
  have counted : store.used.toNat = total store.root tree := exactly
  cases resolved : tree.resolve store.root hex with
  | none =>
      have nothing : ¬ store.Strays tree hex := by
        rintro ⟨place, found, -⟩
        cases resolved.symm.trans found
      have after : Exact (remove hex (store, tree)).2 := by
        simp only [remove, resolved]
        exact (satSub_toNat _ _).trans counted
      exact ⟨fun _ => .inr nothing, fun _ => after⟩
  | some place =>
      rcases FileTree.removeFile_cases place tree with ⟨fault, failed⟩ | ⟨after, removed, updated⟩
      · have kept : ¬ store.Strays tree hex := by
          rintro ⟨place', found, ⟨after, removed⟩, -⟩
          cases resolved.symm.trans found
          cases failed.symm.trans removed
        simp only [remove, resolved, failed]
        exact ⟨fun _ => .inr kept, fun _ => exactly⟩
      · have strays : store.Strays tree hex ↔ FileTree.fileSize (tree.node place) ≠ 0 ∧
            ∀ name ∈ chunkNames, name :: store.root ≠ place := by
          constructor
          · rintro ⟨place', found, -, size, foreign⟩
            cases resolved.symm.trans found
            exact ⟨size, foreign⟩
          · rintro ⟨size, foreign⟩
            exact ⟨place, resolved, ⟨after, removed⟩, size, foreign⟩
        have left : Exact (remove hex (store, tree)).2 ↔
            store.used.toNat - (lenU64 (FileTree.fileSize (tree.node place))).toNat =
              total store.root after := by
          simp only [remove, resolved, removed]
          rw [← satSub_toNat]
          exact Iff.rfl
        have bound := store.used.toNat_lt
        rw [left, strays, lenU64_toNat, ← UInt64.toNat_inj, UInt64.toNat_zero]
        by_cases foreign : ∀ name ∈ chunkNames, name :: store.root ≠ place
        · -- a file that was never counted
          have same : total store.root after = total store.root tree :=
            FileTree.usage_update_elsewhere updated foreign
          rw [and_iff_left foreign, not_not]
          omega
        · push Not at foreign
          obtain ⟨name, isChunk, rfl⟩ := foreign
          have within : FileTree.fileSize (tree.node (name :: store.root)) ≤ total store.root tree :=
            FileTree.fileSize_le_usage isChunk
          have moved : total store.root after + FileTree.fileSize (tree.node (name :: store.root)) =
              total store.root tree + FileTree.fileSize none :=
            FileTree.usage_update updated isChunk
          have known : ¬ ∀ other ∈ chunkNames, other :: store.root ≠ name :: store.root :=
            fun foreign => foreign name isChunk rfl
          simp only [known, and_false, not_false_eq_true, or_true, iff_true]
          rw [show FileTree.fileSize none = 0 from rfl] at moved
          omega

theorem remove_chunk_exact (plain : FileTree.Plain hex) (isChunk : hex ∈ chunkNames) :
    (remove hex).Keeps (Exact : ChunkStore hemera × FileTree → Prop) := by
  rintro ⟨store, tree⟩ exactly
  refine (remove_exact_iff exactly).mpr (.inr ?_)
  rintro ⟨place, found, -, -, foreign⟩
  exact foreign hex isChunk (plain.resolve_eq found).symm

theorem gcFrom_exact {live names : List String} {removed : Nat} {freed : UInt64}
    (plain : ∀ name ∈ names, FileTree.Plain name) (chunks : ∀ name ∈ names, name ∈ chunkNames) :
    (gcFrom live names removed freed).Keeps (Exact : ChunkStore hemera × FileTree → Prop) := by
  induction names generalizing removed freed with
  | nil => exact Action.keeps_pure _
  | cons name rest ih =>
      have later (removed : Nat) (freed : UInt64) :
          (gcFrom live rest removed freed).Keeps (Exact : ChunkStore hemera × FileTree → Prop) :=
        ih (fun other member => plain other (.tail _ member))
          (fun other member => chunks other (.tail _ member))
      rw [gcFrom]
      refine Action.keeps_ite (later _ _) (Action.keeps_bind
        (remove_chunk_exact (plain name (.head _)) (chunks name (.head _))) fun size =>
        Action.keeps_bind (Action.keeps_lift _) fun total => later _ _)

theorem gc_exact {live entries : List String} (plain : ∀ name ∈ entries, FileTree.Plain name) :
    (gc live entries).Keeps (Exact : ChunkStore hemera × FileTree → Prop) := by
  refine Action.keeps_bind Action.keeps_get fun (store, tree) => Action.keeps_ite ?_
    (Action.keeps_ite (Action.keeps_lift _) (Action.keeps_lift _))
  refine gcFrom_exact (fun name member => plain name (List.mem_of_mem_filter member)) ?_
  intro name member
  rw [mem_chunkNames]
  exact of_decide_eq_true (List.mem_filter.mp member).2

/-- Making directories leaves the total of every directory. -/
theorem total_createDirAll (dir place : Location) (path : String) (tree : FileTree) :
    total dir (FileTree.createDirAll place path tree).2 = total dir tree :=
  FileTree.createDirAll_keeps (FileTree.usage_keptByNewDirs _) place path tree rfl

end Steps

section Runs

/-- The calls on the store that is open, and opening it or another one. -/
inductive Call where
  | new (place : Location) (path : String) (capacity : UInt64)
  | put (shard : Shard)
  | remove (hex : String)
  | gc (live entries : List String)

abbrev Disk (hemera : Hemera) := Option (ChunkStore hemera) × FileTree

/-- What is open and what is on disk after a call, whether it succeeded or not. -/
def perform : Disk hemera → Call → Disk hemera
  | (open?, tree), .new place path capacity =>
      match new place path capacity tree with
      | (.ok store, tree) => (some store, tree)
      | (_, tree) => (open?, tree)
  | (none, tree), _ => (none, tree)
  | (some store, tree), .put shard => (put shard (store, tree)).2.map some id
  | (some store, tree), .remove hex => (remove hex (store, tree)).2.map some id
  | (some store, tree), .gc live entries => (gc live entries (store, tree)).2.map some id

def run (tree : FileTree) (calls : List Call) : Disk hemera := calls.foldl perform (none, tree)

/-- The counter of the open store is the size of the chunk files in its directory. -/
def Accurate (disk : Disk hemera) : Prop := ∀ store, disk.1 = some store → Exact (store, disk.2)

/-- A `put` that succeeds leaves no more in the directory than the capacity, if there is one. -/
def WithinCapacity (disk : Disk hemera) (shard : Shard) : Prop :=
  ∀ store hash after, disk.1 = some store → 0 < store.capacity →
    put shard (store, disk.2) = (.ok hash, after) →
    total store.root after.2 ≤ store.capacity.toNat

/-- What the system grants: no sum of sizes leaves 64 bits, and a directory has proper names. -/
def Granted (disk : Disk hemera) : Call → Prop
  | .put shard => ∀ store, disk.1 = some store →
      store.used.toNat + (shardToBytes shard).length < 2 ^ 64
  | .gc _ entries => ∀ name ∈ entries, FileTree.Plain name
  | _ => True

/-- The calls that the counter survives. -/
def Counted (disk : Disk hemera) : Call → Prop
  | .new place path _ => ∀ root after, FileTree.createDirAll place path disk.2 = (.ok root, after) →
      total root disk.2 = 0
  | .put shard => ∀ store, disk.1 = some store → ¬ store.Over shard →
      disk.2.has (store.place shard) = false → ¬ store.CutShort disk.2 shard
  | .remove hex => ∀ store, disk.1 = some store → store.used = 0 ∨ ¬ store.Strays disk.2 hex
  | .gc _ _ => True

theorem accurate_none (tree : FileTree) : Accurate ((none, tree) : Disk hemera) := by
  intro store opened
  cases opened

theorem accurate_some_iff (state : ChunkStore hemera × FileTree) :
    Accurate (state.map some id) ↔ Exact state := by
  constructor
  · exact fun accurate => accurate state.1 rfl
  · rintro exactly _ ⟨⟩
    exact exactly

/-- A store that is opened counts nothing yet; one that cannot be opened changes nothing
but directories. -/
theorem perform_new (open? : Option (ChunkStore hemera)) (tree : FileTree) (place : Location)
    (path : String) (capacity : UInt64) :
    (∃ root after store, FileTree.createDirAll place path tree = (.ok root, after) ∧
      perform (open?, tree) (.new place path capacity) = (some store, after) ∧
      store.root = root ∧ store.used = 0) ∨
    (∀ root after, FileTree.createDirAll place path tree ≠ (.ok root, after)) ∧
      perform (open?, tree) (.new place path capacity) =
        (open?, (FileTree.createDirAll place path tree).2) := by
  rcases created : FileTree.createDirAll place path tree with ⟨outcome, after⟩
  cases outcome with
  | ok root =>
      refine .inl ⟨root, after, ⟨root, ∅, capacity, 0, by simp⟩, rfl, ?_, rfl, rfl⟩
      rw [perform, new, Action.bind_ok created]
      rfl
  | err fault =>
      refine .inr ⟨fun _ _ => by simp, ?_⟩
      rw [perform, new, Action.bind_err created]
  | panic =>
      refine .inr ⟨fun _ _ => by simp, ?_⟩
      rw [perform, new, Action.bind_panic created]

theorem new_accurate_iff {open? : Option (ChunkStore hemera)} {tree : FileTree} {place : Location}
    {path : String} {capacity : UInt64} (accurate : Accurate (open?, tree)) :
    Accurate (perform (open?, tree) (.new place path capacity)) ↔
      Counted (open?, tree) (.new place path capacity) := by
  rcases perform_new open? tree place path capacity with
    ⟨root, after, store, created, performed, rfl, fresh⟩ | ⟨failed, performed⟩
  · have kept : total store.root after = total store.root tree := by
      have kept := total_createDirAll store.root place path tree
      rwa [created] at kept
    have counted : Counted (open?, tree) (.new place path capacity) ↔ total store.root tree = 0 := by
      constructor
      · exact fun counted => counted store.root after created
      · rintro empty root other again
        cases created.symm.trans again
        exact empty
    rw [performed, counted, ← kept]
    refine (accurate_some_iff (store, after)).trans ?_
    change store.used.toNat = _ ↔ _
    rw [fresh]
    exact eq_comm
  · rw [performed]
    refine iff_of_true (fun store opened => ?_) fun root after created => absurd created (failed root after)
    exact (accurate store opened).trans (total_createDirAll store.root place path tree).symm

/-- One call keeps the counter accurate exactly if it is one that the counter survives. -/
theorem perform_accurate_iff (printed : hemera.toHex = hexText) {disk : Disk hemera} {call : Call}
    (granted : Granted disk call) (accurate : Accurate disk) :
    Accurate (perform disk call) ↔ Counted disk call := by
  obtain ⟨open?, tree⟩ := disk
  cases call with
  | new place path capacity => exact new_accurate_iff accurate
  | put shard =>
      cases open? with
      | none => exact iff_of_true (accurate_none tree) fun _ opened => nomatch opened
      | some store =>
          have step := put_exact_iff printed (accurate store rfl) (granted store rfl)
          simp only [perform, accurate_some_iff, step, Counted, Option.some.injEq, forall_eq']
  | remove hex =>
      cases open? with
      | none => exact iff_of_true (accurate_none tree) fun _ opened => nomatch opened
      | some store =>
          have exactly := accurate store rfl
          simp only [perform, accurate_some_iff, remove_exact_iff exactly, Counted,
            Option.some.injEq, forall_eq']
  | gc live entries =>
      cases open? with
      | none => exact iff_of_true (accurate_none tree) trivial
      | some store =>
          refine iff_of_true ((accurate_some_iff _).mpr ?_) trivial
          exact gc_exact granted (store, tree) (accurate store rfl)

/-- While the counter is accurate, `put` keeps the directory within the capacity. -/
theorem put_withinCapacity (printed : hemera.toHex = hexText) {disk : Disk hemera} {shard : Shard}
    (granted : Granted disk (.put shard)) (accurate : Accurate disk) : WithinCapacity disk shard := by
  intro store hash after opened limited stored
  have counted : store.used.toNat = total store.root disk.2 := accurate store opened
  have unsaturated := granted store opened
  have room (spare : ¬ store.Over shard) :
      store.used.toNat + (shardToBytes shard).length ≤ store.capacity.toNat := by
    have least : ¬ store.capacity < satAdd store.used (lenU64 (shardToBytes shard).length) :=
      fun exceeds => spare ⟨limited, exceeds⟩
    rw [UInt64.lt_iff_toNat_lt, used_add_size unsaturated] at least
    exact Nat.le_of_not_lt least
  rcases put_cases shard store disk.2 with ⟨-, reason, called⟩ | ⟨spare, -, called⟩ |
    ⟨spare, absent, ⟨written, wrote, called⟩ | ⟨fault, left, wrote, called⟩⟩
  · cases called.symm.trans stored
  · cases called.symm.trans stored
    have enough := room spare
    dsimp only
    omega
  · cases called.symm.trans stored
    have enough := room spare
    change total store.root written ≤ _
    rw [total_written printed absent wrote, ← counted]
    exact enough
  · cases called.symm.trans stored

/-- Through a run of calls the counter is the size of the chunk files, and no `put` fills
the directory beyond the capacity, exactly if every call of the run is one that the counter
survives: no store is opened on a directory that has chunk files, no write is cut short,
and no name that is removed leads elsewhere. -/
theorem run_accurate_iff (printed : hemera.toHex = hexText) (tree : FileTree) (calls : List Call)
    (granted : ∀ earlier call, earlier ++ [call] <+: calls →
      Granted (run tree earlier : Disk hemera) call) :
    ((∀ earlier, earlier <+: calls → Accurate (run tree earlier : Disk hemera)) ∧
      ∀ earlier shard, earlier ++ [.put shard] <+: calls →
        WithinCapacity (run tree earlier : Disk hemera) shard) ↔
    ∀ earlier call, earlier ++ [call] <+: calls → Counted (run tree earlier : Disk hemera) call := by
  have throughout : (∀ earlier, earlier <+: calls → Accurate (run tree earlier : Disk hemera)) ↔
      ∀ earlier call, earlier ++ [call] <+: calls → Counted (run tree earlier : Disk hemera) call :=
    throughout_iff Accurate Counted (accurate_none tree) fun earlier call started =>
      perform_accurate_iff printed (granted earlier call started)
  rw [← throughout]
  refine ⟨And.left, fun accurate => ⟨accurate, fun earlier shard started => ?_⟩⟩
  exact put_withinCapacity printed (granted earlier _ started)
    (accurate earlier ((List.prefix_append earlier [.put shard]).trans started))

section Example

def emptyDisk : FileTree := FileTree.bare fun _ => none

def firstShard : Shard := ⟨0, [1]⟩

def secondShard : Shard := ⟨1, [2]⟩

/-- The store is opened on an empty disk and takes in a chunk. -/
def openAndPut : List Call := [.new [] "chunks" 8, .put firstShard]

theorem emptyDisk_total (root : Location) : total root emptyDisk = 0 := by
  refine FileTree.usage_eq_zero_iff.mpr fun name _ => ?_
  rfl

theorem started_openAndPut {earlier : List Call} {call : Call}
    (started : earlier ++ [call] <+: openAndPut) :
    (earlier = [] ∧ call = .new [] "chunks" 8) ∨
      (earlier = [.new [] "chunks" 8] ∧ call = .put firstShard) := by
  rcases earlier with _ | ⟨first, _ | ⟨second, rest⟩⟩
  · exact .inl ⟨rfl, (List.cons_prefix_cons.mp started).1⟩
  · obtain ⟨rfl, later⟩ := List.cons_prefix_cons.mp started
    exact .inr ⟨rfl, (List.cons_prefix_cons.mp later).1⟩
  · have shorter := started.length_le
    simp [openAndPut] at shorter

theorem run_accurate_iff_open_and_put :
    Hemera.truncating.toHex = hexText ∧
      Accurate (run emptyDisk openAndPut : Disk .truncating) ∧
      (run emptyDisk openAndPut : Disk .truncating).1.map ChunkStore.used = some 8 := by
  have printed : Hemera.truncating.toHex = hexText := rfl
  refine ⟨printed, ?_, by decide +kernel⟩
  have opened {store : ChunkStore .truncating}
      (opened : (run emptyDisk [.new [] "chunks" 8] : Disk .truncating).1 = some store) :
      store.used = 0 ∧ (FileTree.write (store.place firstShard) (shardToBytes firstShard)
        (run emptyDisk [.new [] "chunks" 8] : Disk .truncating).2).1 = .ok () := by
    cases opened
    decide +kernel
  refine ((run_accurate_iff printed emptyDisk openAndPut ?_).mpr ?_).1 openAndPut (List.prefix_refl _)
  · intro earlier call started
    rcases started_openAndPut started with ⟨rfl, rfl⟩ | ⟨rfl, rfl⟩
    · exact trivial
    · intro store held
      rw [(opened held).1]
      decide +kernel
  · intro earlier call started
    rcases started_openAndPut started with ⟨rfl, rfl⟩ | ⟨rfl, rfl⟩
    · exact fun root _ _ => emptyDisk_total root
    · rintro store held _ _ ⟨fault, after, failed, _⟩
      have written := (opened held).2
      rw [failed] at written
      cases written

/-- The directory of a full store is opened again: the counter is 0, the chunk still takes
all of the capacity, and the next `put` goes beyond it. -/
theorem reopened_counts_nothing :
    let disk : Disk .truncating := run emptyDisk (openAndPut ++ [.new [] "chunks" 8])
    disk.1.map ChunkStore.used = some 0 ∧ 8 ≤ total ["chunks"] disk.2 ∧ ¬ Accurate disk ∧
      ¬ WithinCapacity disk secondShard := by
  intro disk
  have full : 8 ≤ total ["chunks"] disk.2 := by
    have isChunk : chunkName .truncating firstShard ∈ chunkNames := place_counted rfl
    have held : FileTree.fileSize (disk.2.node [chunkName .truncating firstShard, "chunks"]) = 8 := by
      decide +kernel
    rw [← held]
    exact FileTree.fileSize_le_usage isChunk
  have fields : disk.1.map (fun store => (store.root, store.used, store.capacity)) =
      some (["chunks"], 0, 8) := by decide +kernel
  have results : disk.1.all (fun store => disk.2.has (store.place secondShard) = false ∧
      (put secondShard (store, disk.2)).1 = .ok (digest .truncating secondShard) ∧
      (FileTree.write (store.place secondShard) (shardToBytes secondShard) disk.2).1 = .ok ()) := by
    decide +kernel
  clear_value disk
  obtain ⟨store, isOpen, same⟩ := Option.map_eq_some_iff.mp fields
  simp only [Prod.mk.injEq] at same
  obtain ⟨root, unused, capacity⟩ := same
  rw [isOpen, Option.all_some, decide_eq_true_eq] at results
  obtain ⟨absent, stored, written⟩ := results
  refine ⟨by rw [isOpen, Option.map_some, unused], full, ?_, ?_⟩
  · intro accurate
    have counted : store.used.toNat = total store.root disk.2 := accurate store isOpen
    rw [unused, root] at counted
    rw [← counted] at full
    cases full
  · intro within
    have limit := within store _ (put secondShard (store, disk.2)).2 isOpen (by rw [capacity]; decide)
      (Prod.ext stored rfl)
    rcases put_cases secondShard store disk.2 with ⟨-, reason, called⟩ | ⟨-, present, called⟩ |
      ⟨-, -, ⟨after, wrote, called⟩ | ⟨fault, after, wrote, called⟩⟩
    · rw [called] at stored
      cases stored
    · rw [present] at absent
      cases absent
    · have added := total_written rfl absent wrote
      have size : (shardToBytes secondShard).length = 8 := by decide
      rw [root] at added
      rw [called, capacity, root] at limit
      change total ["chunks"] after ≤ 8 at limit
      omega
    · rw [wrote] at written
      cases written

end Example

end Runs

end ChunkStore

end Foculus.Store

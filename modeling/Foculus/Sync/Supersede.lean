import Foculus.Store.Convergence
import Foculus.Sync.Files
import Foculus.VDisk.Recovery

namespace Foculus

open Data Erasure Store

/-! # Which writes take effect

`put_file` and `delete_file` stamp their entry with the clock and hand it to the
last-writer-wins insert, which drops it without a word when the name is held
with a stamp that is not smaller: by a peer whose clock is ahead, or by a write
of the same millisecond.  `rechunk` stamps its entry later than the one it
replaces; these calls do not.
-/

namespace Store.GSet

/-- The entry is the only one held for its name, or beats the one that is. -/
def Admits (registry : GSet) (entry : FileEntry) : Prop :=
  ∀ held, registry.getRaw entry.name = some held → held.stamp < entry.stamp ∨ held = entry

theorem getRaw_insert_eq_iff {registry : GSet} {entry : FileEntry} :
    (registry.insert entry).getRaw entry.name = some entry ↔ registry.Admits entry := by
  rw [getRaw_insert]
  cases found : registry.getRaw entry.name with
  | none => simp [Admits, found]
  | some held =>
      simp only [Admits, found, Option.some.injEq, forall_eq']
      split_ifs with newer
      · simp [newer]
      · simp [newer]

theorem get_of_live {registry : GSet} {name : String} {entry : FileEntry}
    (live : entry.deleted = false) :
    registry.get name = some entry ↔ registry.getRaw name = some entry := by
  rw [get, getRaw, Option.filter_eq_some_iff]
  simp [live]

end Store.GSet

namespace VDisk.World

variable {hemera : Hemera} {nebu : Nebu} {merkle : HemeraTree} {now : UInt64}
  {diskName fileName : String} {data : List UInt8} {world after : World hemera}

/-- The entry that `put_file` makes. -/
def putEntry (world : World hemera) (nebu : Nebu) (merkle : HemeraTree) (now : UInt64)
    (diskName fileName : String) (data : List UInt8) : FileEntry :=
  let deviceNames := world.manager.deviceNames diskName
  let devices := deviceNames.length
  let k := devices - (world.manager.disks[diskName]?.elim 0 (·.redundancy.failures devices))
  let shards := world.shardsOf nebu diskName data
  fileEntry merkle hemera fileName data k (nextPowerOfTwo devices)
    (world.storedHashes deviceNames shards) now (Das.commit merkle shards k data.length) 1

theorem putFile_registry {commitment : DasCommitment}
    (stored : putFile nebu merkle now diskName fileName data world = (.ok commitment, after)) :
    after.manager.registry = world.manager.registry.insert
      (world.putEntry nebu merkle now diskName fileName data) := by
  obtain ⟨config, k, hashes, between, disk, -, counted, -, dealt, rfl, rfl⟩ := putFile_ok stored
  obtain ⟨rfl, same⟩ := distribute_hashes dealt
  have threshold : k = (world.manager.deviceNames diskName).length -
      world.manager.disks[diskName]?.elim 0
        (·.redundancy.failures (world.manager.deviceNames diskName).length) := by
    rw [disk, Option.elim_some]
    omega
  rw [register, same, putEntry, threshold]

end VDisk.World

namespace Sync.SyncNode

theorem deleteFile_ok {hemera : Hemera} {json : Json} {now : UInt64} {name : String}
    {node after : SyncNode} (deleted : deleteFile hemera json now name node = (.ok (), after)) :
    ∃ existing, node.state.registry.getRaw name = some existing ∧ existing.deleted = false ∧
      after.state.registry =
        node.state.registry.insert (tombstone hemera node.state existing name now) := by
  rw [deleteFile, Action.get_bind] at deleted
  cases found : node.state.registry.getRaw name with
  | none =>
      rw [found] at deleted
      cases deleted
  | some existing =>
      simp only [found] at deleted
      split_ifs at deleted with gone
      · cases deleted
      · rw [Action.modify_bind] at deleted
        refine ⟨existing, rfl, by simpa using gone, ?_⟩
        rw [saveRegistry_ok deleted, register]

/-- After a call that returns, the registry holds the entry that the call wrote
exactly when it held none for the name, or one with a smaller stamp, or the
same entry. -/
theorem write_is_held_iff (hemera : Hemera) (nebu : Nebu) (merkle : HemeraTree) (json : Json)
    (now : UInt64) (name : String) :
    (∀ (data : List UInt8) (node after : SyncNode),
      putFile hemera nebu merkle json now name data node = (.ok (), after) →
      let entry := putEntry hemera nebu merkle node.state now name data
      (after.state.registry.getRaw name = some entry ∧
        after.state.registry.get name = some entry ↔ node.state.registry.Admits entry)) ∧
    (∀ node after : SyncNode, deleteFile hemera json now name node = (.ok (), after) →
      ∃ existing, node.state.registry.getRaw name = some existing ∧
        let entry := tombstone hemera node.state existing name now
        (after.state.registry.getRaw name = some entry ∧ after.state.registry.get name = none ↔
          existing.stamp < entry.stamp)) ∧
    ∀ (diskName : String) (data : List UInt8) (world after : VDisk.World hemera)
      (commitment : DasCommitment),
      VDisk.World.putFile nebu merkle now diskName name data world = (.ok commitment, after) →
      let entry := world.putEntry nebu merkle now diskName name data
      (after.manager.registry.getRaw name = some entry ∧
        after.manager.registry.get name = some entry ↔ world.manager.registry.Admits entry) := by
  refine ⟨?_, ?_, ?_⟩
  · intro data node after put entry
    rw [(putFile_ok put).2, GSet.get_of_live rfl, and_self]
    exact GSet.getRaw_insert_eq_iff
  · intro node after deleted
    obtain ⟨existing, found, live, registry⟩ := deleteFile_ok deleted
    refine ⟨existing, found, ?_⟩
    intro entry
    have held : after.state.registry.getRaw name =
        if existing.stamp < entry.stamp then some entry else some existing := by
      have inserted := GSet.getRaw_insert node.state.registry entry
      rw [show entry.name = name from rfl, found] at inserted
      rw [registry]
      exact inserted
    have gone : entry.deleted = true := rfl
    have different : existing ≠ entry := fun same => by simp [same, gone] at live
    rw [GSet.get, ← GSet.getRaw, held]
    split_ifs with newer
    · simp [newer, gone]
    · simp [newer, live, different]
  · intro diskName data world after commitment stored entry
    rw [VDisk.World.putFile_registry stored, GSet.get_of_live rfl, and_self]
    exact GSet.getRaw_insert_eq_iff

/-- An entry of a peer whose clock is one millisecond ahead. -/
def aheadEntry : FileEntry where
  name := "notes"
  originalLen := 1
  k := 1
  n := 2
  shardHashes := ["aa", "aa"]
  timestamp := 6
  entryHash := FileEntry.computeHash .truncating "notes" ["aa", "aa"] 6 "away"
  deviceId := "away"
  dasRoot := String.ofList (List.replicate 64 '0')
  shardCopies := 1
  deleted := false

def homeWithNotes : SyncNode := home.register aheadEntry

theorem write_is_held_iff_at_home :
    (∃ after, putFile .truncating naiveNebu .truncating emptyJson 5 "notes" [7] home =
        (.ok (), after) ∧ after.state.registry.get "notes" =
          some (putEntry .truncating naiveNebu .truncating home.state 5 "notes" [7])) ∧
      (∃ after, deleteFile .truncating emptyJson 7 "notes" homeWithNotes = (.ok (), after) ∧
        after.state.registry.get "notes" = none) ∧
      ∃ commitment after, VDisk.World.putFile naiveNebu .truncating 5 "work" "notes" [7]
          VDisk.World.twoDevices = (.ok commitment, after) ∧
        after.manager.registry.get "notes" =
          some (VDisk.World.twoDevices.putEntry naiveNebu .truncating 5 "work" "notes" [7]) := by
  obtain ⟨puts, -, stores⟩ :=
    write_is_held_iff .truncating naiveNebu .truncating emptyJson 5 "notes"
  obtain ⟨-, deletes, -⟩ :=
    write_is_held_iff .truncating naiveNebu .truncating emptyJson 7 "notes"
  refine ⟨?_, ?_, ?_⟩
  · have returned : (putFile .truncating naiveNebu .truncating emptyJson 5 "notes" [7] home).1 =
        .ok () := by
      rw [naiveNebu_eq]
      decide +kernel
    have absent : home.state.registry.getRaw "notes" = none := by decide +kernel
    have put := Action.eq_of_fst_ok returned
    refine ⟨_, put, ((puts [7] home _ put).mpr fun held found => ?_).2⟩
    cases absent.symm.trans found
  · have returned : (deleteFile .truncating emptyJson 7 "notes" homeWithNotes).1 = .ok () := by
      decide +kernel
    have known : homeWithNotes.state.registry.getRaw "notes" = some aheadEntry := by
      decide +kernel
    have deleted := Action.eq_of_fst_ok returned
    obtain ⟨existing, found, held⟩ := deletes homeWithNotes _ deleted
    cases Option.some.inj (known.symm.trans found)
    exact ⟨_, deleted, (held.mpr ((stamp_lt_iff _ _).mpr (.inl (by decide)))).2⟩
  · have returned : (VDisk.World.putFile naiveNebu .truncating 5 "work" "notes" [7]
        VDisk.World.twoDevices).1.void = .ok () := by
      rw [naiveNebu_eq]
      decide +kernel
    have absent : VDisk.World.twoDevices.manager.registry.getRaw "notes" = none := by
      decide +kernel
    obtain ⟨commitment, returned⟩ := Outcome.void_eq_ok.mp returned
    have stored := Action.eq_of_fst_ok returned
    refine ⟨commitment, _, stored, ((stores "work" [7] _ _ commitment stored).mpr
      fun held found => ?_).2⟩
    cases absent.symm.trans found

/-- The peer's entry passes validation, and deleting the file then succeeds
without effect. -/
theorem delete_of_newer_entry_is_dropped :
    aheadEntry.validate .truncating 5 = .ok () ∧
      (deleteFile .truncating emptyJson 5 "notes" homeWithNotes).1 = .ok () ∧
      (deleteFile .truncating emptyJson 5 "notes" homeWithNotes).2.state.registry.get "notes" =
        some aheadEntry := by
  refine ⟨by rfl, by decide +kernel, by decide +kernel⟩

end Sync.SyncNode

end Foculus

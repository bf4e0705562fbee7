import Foculus.Crates.Hemera
import Mathlib.Data.Prod.Lex
import Mathlib.Data.String.Basic
import Std.Data.ExtTreeMap

namespace Foculus.Store

/-! # The file registry (`src/store.rs`)

`HashMap` is a finite map here; wherever the source walks over its values the
model takes the list the walk yields, and `GSet.Iterates` says which lists it
can be.
-/

structure FileEntry where
  name : String
  originalLen : Nat
  k : Nat
  n : Nat
  shardHashes : List String
  timestamp : UInt64
  entryHash : String
  deviceId : String
  dasRoot : String
  shardCopies : Nat
  deleted : Bool
deriving DecidableEq

def maxClockDriftMs : Nat := 3600000

def maxRegistryEntries : Nat := 100000

inductive ValidationError where
  | hashMismatch
  | timestampFuture
  | emptyName
  | noShards
  | registryFull
deriving DecidableEq

namespace FileEntry

def preimage (name : String) (shardHashes : List String) (timestamp : UInt64)
    (deviceId : String) : List UInt8 :=
  strBytes name ++ shardHashes.flatMap strBytes ++ u64Bytes timestamp ++ strBytes deviceId

def computeHash (hemera : Hemera) (name : String) (shardHashes : List String)
    (timestamp : UInt64) (deviceId : String) : String :=
  hemera.toHex (hemera.hash (preimage name shardHashes timestamp deviceId))

def verifyHash (hemera : Hemera) (entry : FileEntry) : Bool :=
  entry.entryHash ==
    computeHash hemera entry.name entry.shardHashes entry.timestamp entry.deviceId

/-- `validate` at clock reading `now`. -/
def validate (hemera : Hemera) (now : Nat) (entry : FileEntry) : Except ValidationError Unit :=
  if entry.name.isEmpty then .error .emptyName
  else if entry.shardHashes.isEmpty then .error .noShards
  else if !entry.verifyHash hemera then .error .hashMismatch
  else if entry.timestamp.toNat > now + maxClockDriftMs then .error .timestampFuture
  else .ok ()

end FileEntry

structure GSet where
  files : Std.ExtTreeMap String FileEntry

namespace GSet

def new : GSet := { files := ∅ }

def values (registry : GSet) : List FileEntry := registry.files.toList.map Prod.snd

/-- `order` is what some walk over `files.values()` yields. -/
def Iterates (registry : GSet) (order : List FileEntry) : Prop := order.Perm registry.values

def lwwInsert (registry : GSet) (entry : FileEntry) : GSet :=
  match registry.files[entry.name]? with
  | some existing =>
      if entry.timestamp > existing.timestamp ∨
          (entry.timestamp = existing.timestamp ∧ entry.entryHash > existing.entryHash) then
        { files := registry.files.insert entry.name entry }
      else registry
  | none => { files := registry.files.insert entry.name entry }

def insert (registry : GSet) (entry : FileEntry) : GSet := registry.lwwInsert entry

def validatedInsert (hemera : Hemera) (now : Nat) (registry : GSet) (entry : FileEntry) :
    Except ValidationError GSet := do
  entry.validate hemera now
  if registry.files.size ≥ maxRegistryEntries && !registry.files.contains entry.name then
    .error .registryFull
  else .ok (registry.lwwInsert entry)

/-- `validated_merge` over the entries of the other set in the order given,
with the counts of accepted and rejected entries. -/
def validatedMerge (hemera : Hemera) (now : Nat) (registry : GSet) (order : List FileEntry) :
    GSet × Nat × Nat :=
  order.foldl
    (fun (registry, accepted, rejected) entry =>
      match registry.validatedInsert hemera now entry with
      | .ok registry => (registry, accepted + 1, rejected)
      | .error _ => (registry, accepted, rejected + 1))
    (registry, 0, 0)

def merge (registry : GSet) (order : List FileEntry) : GSet := order.foldl lwwInsert registry

/-- `merkle_root` when the walk over the entries yields `order`. -/
def merkleRoot (hemera : Hemera) (order : List FileEntry) : String :=
  let hashes := (order.map FileEntry.entryHash).mergeSort fun left right => decide (left ≤ right)
  let data := hashes.flatMap strBytes
  if data.isEmpty then String.ofList (List.replicate 64 '0')
  else hemera.toHex (hemera.hash data)

/-- The entry of a live file. -/
def get (registry : GSet) (name : String) : Option FileEntry :=
  registry.files[name]?.filter (!·.deleted)

def getRaw (registry : GSet) (name : String) : Option FileEntry := registry.files[name]?

/-- The number of live files. -/
def len (registry : GSet) : Nat := (registry.values.filter (!·.deleted)).length

/-- `live_shard_hashes`, a set that does not depend on the order of the walk. -/
def liveShardHashes (registry : GSet) : List String :=
  (registry.values.filter (!·.deleted)).flatMap FileEntry.shardHashes

/-- An inserted entry is dropped or held under its name. -/
theorem insert_cases (registry : GSet) (entry : FileEntry) :
    registry.insert entry = registry ∨
      registry.insert entry = { files := registry.files.insert entry.name entry } := by
  rw [insert, lwwInsert]
  split
  · split_ifs
    · exact .inr rfl
    · exact .inl rfl
  · exact .inr rfl

theorem getRaw_insert_cases (registry : GSet) (entry : FileEntry) (name : String) :
    (registry.insert entry).getRaw name = registry.getRaw name ∨
      name = entry.name ∧ (registry.insert entry).getRaw name = some entry := by
  rcases registry.insert_cases entry with same | held
  · exact .inl (by rw [same])
  · rw [held, getRaw, Std.ExtTreeMap.getElem?_insert]
    by_cases here : compare entry.name name = .eq
    · rw [if_pos here]
      exact .inr ⟨(Std.LawfulEqCmp.eq_of_compare here).symm, rfl⟩
    · rw [if_neg here]
      exact .inl rfl

/-- An entry that is stamped later than the one it supersedes is held. -/
theorem getRaw_insert_newer {registry : GSet} {entry : FileEntry}
    (newer : ∀ existing, registry.getRaw entry.name = some existing →
      existing.timestamp < entry.timestamp) :
    (registry.insert entry).getRaw entry.name = some entry := by
  rw [getRaw, insert, lwwInsert]
  cases held : registry.files[entry.name]? with
  | none => exact Std.ExtTreeMap.getElem?_insert_self
  | some existing =>
      simp only
      rw [if_pos (.inl (newer existing held))]
      exact Std.ExtTreeMap.getElem?_insert_self

theorem get_insert_of_absent {registry : GSet} {entry : FileEntry}
    (absent : registry.getRaw entry.name = none) (live : entry.deleted = false) :
    (registry.insert entry).get entry.name = some entry := by
  rw [getRaw] at absent
  simp [get, insert, lwwInsert, absent, live]

end GSet

end Foculus.Store

import Foculus.Data.FileTree
import Foculus.Data.Saturating
import Foculus.Store.Chunk
import Std.Data.ExtTreeMap

namespace Foculus.Store

open Data Erasure

/-! # The chunk store (`ChunkStore` in `src/store.rs`)

The fields are private to the source and `put` is the only call that adds to
the index, so what the index holds under a name always has that name as its
hash.  Nothing of the kind is known of the files in the directory.
-/

structure ChunkStore (hemera : Hemera) where
  root : Location
  index : Std.ExtTreeMap String (List UInt8)
  capacity : UInt64
  used : UInt64
  addressed : ∀ {hex : String} {bytes : List UInt8}, index[hex]? = some bytes →
    hemera.toHex (hemera.hash bytes) = hex

namespace ChunkStore

variable {hemera : Hemera}

def new (place : Location) (path : String) (capacity : UInt64) :
    Action FileTree Fault (ChunkStore hemera) := do
  let root ← FileTree.createDirAll place path
  return { root, index := ∅, capacity, used := 0, addressed := by simp }

/-- Opening a store writes no file. -/
theorem new_within {other : FileTree} (place : Location) (path : String) (capacity : UInt64) :
    (new place path capacity : Action _ _ (ChunkStore hemera)).Keeps other.Within :=
  Action.keeps_bind (FileTree.createDirAll_within place path) fun _ => Action.keeps_pure _

theorem new_index {place : Location} {path : String} {capacity : UInt64} {tree after : FileTree}
    {store : ChunkStore hemera} (opened : new place path capacity tree = (.ok store, after)) :
    store.index = ∅ := by
  obtain ⟨root, between, -, returned⟩ := Action.bind_eq_ok_iff.mp opened
  cases returned
  rfl

def indexed (store : ChunkStore hemera) (bytes : List UInt8) : ChunkStore hemera where
  root := store.root
  index := store.index.insert (hemera.toHex (hemera.hash bytes)) bytes
  capacity := store.capacity
  used := store.used
  addressed := by
    intro hex held found
    rw [Std.ExtTreeMap.getElem?_insert] at found
    split_ifs at found with same
    · cases Option.some.inj found
      exact Std.LawfulEqCmp.eq_of_compare same
    · exact store.addressed found

def occupied (store : ChunkStore hemera) (size : UInt64) : ChunkStore hemera :=
  { store with used := satAdd store.used size }

def put (shard : Shard) : Action (ChunkStore hemera × FileTree) String Particle :=
  fun (store, tree) =>
    let bytes := shardToBytes shard
    let hash := hemera.hash bytes
    let path := hemera.toHex hash :: store.root
    let size := lenU64 bytes.length
    if 0 < store.capacity ∧ store.capacity < satAdd store.used size then
      (.err "chunk store capacity exceeded", store, tree)
    else if tree.has path then (.ok hash, store.indexed bytes, tree)
    else match FileTree.write path bytes tree with
      | (.ok _, tree) => (.ok hash, (store.occupied size).indexed bytes, tree)
      | (.err fault, tree) => (.err fault.text, store, tree)
      | (.panic, tree) => (.panic, store, tree)

def get (store : ChunkStore hemera) (tree : FileTree) (hash : Particle) :
    Except Fault (List UInt8) :=
  let hex := hemera.toHex hash
  match store.index[hex]? with
  | some bytes => .ok bytes
  | none => tree.read (hex :: store.root)

def has (store : ChunkStore hemera) (tree : FileTree) (hash : Particle) : Bool :=
  let hex := hemera.toHex hash
  store.index.contains hex || tree.has (hex :: store.root)

/-- The store has no room for the chunk, whether or not it has the chunk already. -/
def Over (store : ChunkStore hemera) (shard : Shard) : Prop :=
  0 < store.capacity ∧
    store.capacity < satAdd store.used (lenU64 (shardToBytes shard).length)

def place (store : ChunkStore hemera) (shard : Shard) : Location :=
  chunkName hemera shard :: store.root

/-- What `put` can do; it does not abort. -/
theorem put_cases (shard : Shard) (store : ChunkStore hemera) (tree : FileTree) :
    (store.Over shard ∧ ∃ reason, put shard (store, tree) = (.err reason, store, tree)) ∨
    (¬ store.Over shard ∧ tree.has (store.place shard) = true ∧
      put shard (store, tree) =
        (.ok (digest hemera shard), store.indexed (shardToBytes shard), tree)) ∨
    (¬ store.Over shard ∧ tree.has (store.place shard) = false ∧
      ((∃ after, FileTree.write (store.place shard) (shardToBytes shard) tree = (.ok (), after) ∧
        put shard (store, tree) = (.ok (digest hemera shard),
          (store.occupied (lenU64 (shardToBytes shard).length)).indexed (shardToBytes shard),
          after)) ∨
      ∃ fault after, FileTree.write (store.place shard) (shardToBytes shard) tree =
        (.err fault, after) ∧ put shard (store, tree) = (.err fault.text, store, after))) := by
  simp only [put, Over, place, chunkName, digest]
  by_cases full : 0 < store.capacity ∧
      store.capacity < satAdd store.used (lenU64 (shardToBytes shard).length)
  · exact .inl ⟨full, _, if_pos full⟩
  · right
    rw [if_neg full]
    cases present :
        tree.has (hemera.toHex (hemera.hash (shardToBytes shard)) :: store.root) with
    | true => exact .inl ⟨full, rfl, rfl⟩
    | false =>
        right
        refine ⟨full, rfl, ?_⟩
        rcases FileTree.write_cases
            (hemera.toHex (hemera.hash (shardToBytes shard)) :: store.root)
            (shardToBytes shard) tree with
          ⟨after, written, -⟩ | ⟨fault, written⟩ | ⟨fault, _, after, written, -⟩
        · simp only [written]
          exact .inl ⟨after, rfl, rfl⟩
        · simp only [written]
          exact .inr ⟨fault, tree, rfl, rfl⟩
        · simp only [written]
          exact .inr ⟨fault, after, rfl, rfl⟩

theorem has_of_put {shard : Shard} {store : ChunkStore hemera} {tree : FileTree} {place : Location}
    (present : (put shard (store, tree)).2.2.has place = true) :
    tree.has place = true ∨ place = store.place shard := by
  rcases put_cases shard store tree with ⟨-, reason, put⟩ | ⟨-, -, put⟩ |
    ⟨-, -, ⟨after, written, put⟩ | ⟨fault, after, written, put⟩⟩
  · rw [put] at present
    exact .inl present
  · rw [put] at present
    exact .inl present
  · rw [put] at present
    exact FileTree.has_of_write (by rwa [written])
  · rw [put] at present
    exact FileTree.has_of_write (by rwa [written])

/-- A chunk that was put lies in the directory. -/
theorem has_place_of_put {shard : Shard} {store after : ChunkStore hemera}
    {tree later : FileTree} {hash : Particle}
    (stored : put shard (store, tree) = (.ok hash, after, later)) :
    later.has (store.place shard) = true := by
  rcases put_cases shard store tree with ⟨-, reason, put⟩ | ⟨-, present, put⟩ |
    ⟨-, -, ⟨next, written, put⟩ | ⟨fault, next, written, put⟩⟩
  · cases put.symm.trans stored
  · cases put.symm.trans stored
    exact present
  · cases put.symm.trans stored
    rw [FileTree.has, FileTree.write_ok written, Function.update_self]
    rfl
  · cases put.symm.trans stored

/-- A successful `put` adds the chunk to the index, and to the directory unless
something is there under its name. -/
theorem put_ok {shard : Shard} {store after : ChunkStore hemera} {tree later : FileTree}
    {hash : Particle} (stored : put shard (store, tree) = (.ok hash, after, later)) :
    hash = hemera.hash (shardToBytes shard) ∧ after.root = store.root ∧
      after.index = store.index.insert (hemera.toHex hash) (shardToBytes shard) ∧
      (later.node = tree.node ∨ tree.has (hemera.toHex hash :: store.root) = false ∧
        later.node = Function.update tree.node (hemera.toHex hash :: store.root)
          (some (.file (shardToBytes shard)))) := by
  simp only [put] at stored
  split_ifs at stored with full present
  · simp at stored
  · simp only [Prod.mk.injEq, Outcome.ok.injEq] at stored
    obtain ⟨rfl, rfl, rfl⟩ := stored
    exact ⟨rfl, rfl, rfl, .inl rfl⟩
  · split at stored
    · rename_i written
      simp only [Prod.mk.injEq, Outcome.ok.injEq] at stored
      obtain ⟨rfl, rfl, rfl⟩ := stored
      exact ⟨rfl, rfl, rfl, .inr ⟨by simpa using present, FileTree.write_ok written⟩⟩
    · simp at stored
    · simp at stored

/-- What `get` returns is in the index, or where the index has nothing, in a file
under the chunk's name. -/
theorem get_ok {store : ChunkStore hemera} {tree : FileTree} {hash : Particle}
    {bytes : List UInt8} (found : store.get tree hash = .ok bytes) :
    store.index[hemera.toHex hash]? = some bytes ∨ hemera.toHex hash ∉ store.index ∧
      tree.node (hemera.toHex hash :: store.root) = some (.file bytes) := by
  simp only [get] at found
  split at found
  · rename_i held
    cases found
    exact .inl held
  · rename_i missing
    right
    simp only [FileTree.read] at found
    split at found
    · rename_i node
      cases found
      refine ⟨?_, node⟩
      rw [Std.ExtTreeMap.mem_iff_isSome_getElem?, missing]
      exact Bool.false_ne_true
    · simp at found
    · simp at found

theorem get_indexed {store : ChunkStore hemera} {tree : FileTree} {hash : Particle}
    {bytes : List UInt8} (held : store.index[hemera.toHex hash]? = some bytes) :
    store.get tree hash = .ok bytes := by
  simp only [get, held]

/-- A chunk whose file is there is nothing new to `has` when it is put into the index. -/
theorem indexed_has {store : ChunkStore hemera} {tree : FileTree} {shard : Shard}
    (present : tree.has (store.place shard) = true) (hash : Particle) :
    (store.indexed (shardToBytes shard)).has tree hash = store.has tree hash := by
  rw [has, has, indexed, Std.ExtTreeMap.contains_insert]
  by_cases here : chunkName hemera shard = hemera.toHex hash
  · rw [place, here] at present
    rw [present, Bool.or_true, Bool.or_true]
  · have differs : (compare (hemera.toHex (hemera.hash (shardToBytes shard)))
        (hemera.toHex hash) == .eq) = false :=
      beq_eq_false_iff_ne.mpr fun equal => here (Std.LawfulEqCmp.eq_of_compare equal)
    rw [differs, Bool.false_or]

end ChunkStore

end Foculus.Store

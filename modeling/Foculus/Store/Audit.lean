import Foculus.Store.Accounting

namespace Foculus.Store

open Data Erasure

/-! # The integrity audit (`audit` of `ChunkStore` and of `SyncNode`)

Files whose names have 64 bytes are read and compared with their names; those that differ
are removed by name, one after the other.
-/

namespace ChunkStore

variable {hemera : Hemera}

/-- The names that chunks are recognised by, of those in the directory. -/
def chunkEntries (entries : List String) : List String :=
  entries.filter fun name => (strBytes name).length = 64

/-- The files of `list_chunks`, with the names that `read_dir` lists. -/
def listChunks (store : ChunkStore hemera) (tree : FileTree) (entries : List String) :
    Except Fault (List String) :=
  if tree.node store.root = some .dir then .ok (chunkEntries entries)
  else if tree.has store.root then .error .notADirectory
  else .error .notFound

/-- One round of the loop of `audit`: a file that cannot be read is passed over. -/
def auditFile (store : ChunkStore hemera) (tree : FileTree) (report : Nat × List String)
    (hex : String) : Nat × List String :=
  match (tree.resolve store.root hex).bind fun place => (tree.read place).toOption with
  | some bytes =>
      if verifyChunk hemera bytes hex then (report.1 + 1, report.2)
      else (report.1, report.2 ++ [hex])
  | none => report

/-- How many chunk files have their hash, how many do not, and which these are. -/
def audit (store : ChunkStore hemera) (tree : FileTree) (entries : List String) :
    Except Fault (Nat × Nat × List String) := do
  let names ← store.listChunks tree entries
  let (ok, corrupt) := names.foldl (store.auditFile tree) (0, [])
  return (ok, corrupt.length, corrupt)

/-- A call on the store, seen from the file system. -/
def within {α : Type} (store : ChunkStore hemera)
    (action : Action (ChunkStore hemera × FileTree) Fault α) : Action FileTree Fault α := fun tree =>
  ((action (store, tree)).1, (action (store, tree)).2.2)

/-- `SyncNode::audit`, as far as the file system is concerned. -/
def auditDirectory (hemera : Hemera) (dataDir : Location) (entries : List String) :
    Action FileTree Fault (Nat × Nat) := do
  let store ← (new dataDir "chunks" 0 : Action _ _ (ChunkStore hemera))
  let tree ← Action.get
  let (ok, corrupt, corruptHashes) ← Action.lift (Outcome.ofExcept (store.audit tree entries))
  Action.when (corruptHashes ≠ []) do
    let storeMut ← (new dataDir "chunks" 0 : Action _ _ (ChunkStore hemera))
    storeMut.within (Action.each (fun hex => (remove hex).void) corruptHashes)
  return (ok, corrupt)

/-- There is a file of that name, and it has the hash. -/
def intact (hemera : Hemera) (root : Location) (tree : FileTree) (hex : String) : Bool :=
  match tree.node (hex :: root) with
  | some (.file bytes) => verifyChunk hemera bytes hex
  | _ => false

/-- There is a file of that name, and it does not have the hash. -/
def damaged (hemera : Hemera) (root : Location) (tree : FileTree) (hex : String) : Bool :=
  match tree.node (hex :: root) with
  | some (.file bytes) => !verifyChunk hemera bytes hex
  | _ => false

/-- What `read_dir` lists: every name once, in some order. -/
structure Lists (tree : FileTree) (root : Location) (entries : List String) : Prop where
  complete : ∀ name, tree.has (name :: root) = true ↔ name ∈ entries
  plain : ∀ name ∈ entries, FileTree.Plain name
  distinct : entries.Nodup

section Audit

variable {store : ChunkStore hemera} {tree after : FileTree} {root : Location} {hex : String}

theorem damaged_iff : damaged hemera root tree hex = true ↔
    ∃ bytes, tree.node (hex :: root) = some (.file bytes) ∧ verifyChunk hemera bytes hex = false := by
  rw [damaged]
  cases tree.node (hex :: root) with
  | none => simp
  | some found => cases found <;> simp

theorem auditFile_eq (plain : FileTree.Plain hex) (report : Nat × List String) :
    store.auditFile tree report hex =
      (report.1 + (if intact hemera store.root tree hex then 1 else 0),
        report.2 ++ if damaged hemera store.root tree hex then [hex] else []) := by
  rw [auditFile, plain.resolve_eq_ite, intact, damaged, FileTree.has]
  cases standing : tree.node (hex :: store.root) with
  | none => simp
  | some found =>
      cases found with
      | dir => simp [FileTree.read, standing, Except.toOption]
      | file bytes =>
          cases verified : verifyChunk hemera bytes hex with
          | true => simp [FileTree.read, standing, Except.toOption, verified]
          | false => simp [FileTree.read, standing, Except.toOption, verified]

theorem auditFiles_eq {names : List String} (plain : ∀ name ∈ names, FileTree.Plain name)
    (report : Nat × List String) :
    names.foldl (store.auditFile tree) report =
      (report.1 + names.countP (intact hemera store.root tree),
        report.2 ++ names.filter (damaged hemera store.root tree)) := by
  induction names generalizing report with
  | nil => simp
  | cons name rest ih =>
      rw [List.foldl_cons, ih (fun other member => plain other (.tail _ member)),
        auditFile_eq (plain name (.head _)), List.countP_cons, List.filter_cons]
      dsimp only
      rw [List.append_assoc, Nat.add_assoc, Nat.add_comm (List.countP _ rest)]
      cases damaged hemera store.root tree name with
      | true => rfl
      | false => rfl

/-- The report of the audit. -/
theorem audit_eq {entries : List String} (dir : tree.node store.root = some .dir)
    (plain : ∀ name ∈ entries, FileTree.Plain name) :
    let names := chunkEntries entries
    store.audit tree entries = .ok (names.countP (intact hemera store.root tree),
      (names.filter (damaged hemera store.root tree)).length,
      names.filter (damaged hemera store.root tree)) := by
  intro names
  have chunks : ∀ name ∈ names, FileTree.Plain name :=
    fun name member => plain name (List.mem_of_mem_filter member)
  rw [audit, listChunks, if_pos dir]
  change Except.ok _ = _
  rw [auditFiles_eq chunks, Nat.zero_add, List.nil_append]

end Audit

section Removal

variable {store : ChunkStore hemera} {tree after : FileTree} {hex : String}

/-- A chunk file is gone and everything else as it was, or its removal is denied. -/
theorem remove_file (plain : FileTree.Plain hex) {bytes : List UInt8}
    (file : tree.node (hex :: store.root) = some (.file bytes)) :
    (tree.obstacle (hex :: store.root) = some .denied ∧
      (remove hex).void (store, tree) = (.err .denied, store, tree)) ∨
    ∃ left after, (remove hex).void (store, tree) = (.ok (), left, after) ∧
      left.root = store.root ∧ after.obstacle = tree.obstacle ∧
      after.node = Function.update tree.node (hex :: store.root) none := by
  have present : tree.has (hex :: store.root) = true := by
    rw [FileTree.has, file, Option.isSome_some]
  have leaf : tree.node (hex :: store.root) ≠ some .dir := by simp [file]
  have inside : (tree.node (hex :: store.root)).isSome := present
  by_cases denied : tree.obstacle (hex :: store.root) = some .denied
  · left
    have refused : FileTree.removeFile (hex :: store.root) tree = (.err .denied, tree) := by
      simp only [FileTree.removeFile, dif_neg leaf, dif_pos inside, denied]
    have called : remove hex (store, tree) = (.err .denied, store, tree) := by
      simp only [remove, plain.resolve_eq_ite, if_pos present, refused]
    exact ⟨denied, by rw [Action.void, called, Outcome.void]⟩
  · right
    have removed : FileTree.removeFile (hex :: store.root) tree =
        (.ok (), tree.update hex store.root none (tree.parent_dir inside) leaf) := by
      simp only [FileTree.removeFile, dif_neg leaf, dif_pos inside]
    have called : remove hex (store, tree) =
        (.ok (lenU64 bytes.length), (store.forgotten hex).released (lenU64 bytes.length),
          tree.update hex store.root none (tree.parent_dir inside) leaf) := by
      simp only [remove, plain.resolve_eq_ite, if_pos present, removed, file, FileTree.fileSize]
    exact ⟨_, _, Action.void_eq_ok_iff.mpr ⟨_, called⟩, rfl, rfl, rfl⟩

/-- The tree without the files of these names. -/
structure Cleared (root : Location) (names : List String) (tree after : FileTree) : Prop where
  obstacle : after.obstacle = tree.obstacle
  nodes : ∀ place, after.node place =
    if place ∈ names.map (· :: root) then none else tree.node place

/-- The files are removed in turn, up to one whose removal is denied. -/
theorem removeAll_files {names : List String} (plain : ∀ name ∈ names, FileTree.Plain name)
    (distinct : names.Nodup)
    (files : ∀ name ∈ names, ∃ bytes, tree.node (name :: store.root) = some (.file bytes)) :
    ∃ outcome left after gone, Action.each (fun hex => (remove hex).void) names (store, tree) =
        (outcome, left, after) ∧ gone <+: names ∧ Cleared store.root gone tree after ∧
      (outcome = .ok () ∧ gone = names ∨
        outcome = .err .denied ∧ ∃ name ∈ names, tree.obstacle (name :: store.root) = some .denied) := by
  induction names generalizing store tree with
  | nil =>
      exact ⟨.ok (), store, tree, [], rfl, List.nil_prefix, ⟨rfl, fun place => (if_neg (by simp)).symm⟩,
        .inl ⟨rfl, rfl⟩⟩
  | cons name rest ih =>
      obtain ⟨bytes, file⟩ := files name (.head _)
      obtain ⟨fresh, distinct⟩ := List.nodup_cons.mp distinct
      rcases remove_file (plain name (.head _)) file with
        ⟨denied, refused⟩ | ⟨left, between, removed, root, obstacle, updated⟩
      · refine ⟨.err .denied, store, tree, [], ?_, List.nil_prefix,
          ⟨rfl, fun place => (if_neg (by simp)).symm⟩, .inr ⟨rfl, name, .head _, denied⟩⟩
        rw [Action.each, Action.bind_err refused]
      · have still : ∀ other ∈ rest, between.node (other :: left.root) =
            tree.node (other :: store.root) := by
          intro other member
          rw [root, updated, Function.update_of_ne]
          intro same
          exact fresh ((List.cons.inj same).1 ▸ member)
        have standing : ∀ other ∈ rest,
            ∃ bytes, between.node (other :: left.root) = some (.file bytes) := by
          intro other member
          rw [still other member]
          exact files other (.tail _ member)
        obtain ⟨outcome, last, after, gone, continued, before, cleared, ended⟩ :=
          ih (fun other member => plain other (.tail _ member)) distinct standing
        refine ⟨outcome, last, after, name :: gone, ?_, (List.prefix_cons_inj name).mpr before,
          ⟨cleared.obstacle.trans obstacle, fun place => ?_⟩, ?_⟩
        · rw [Action.each, Action.bind_ok removed, continued]
        · rw [cleared.nodes place, root, updated, Function.update_apply, List.map_cons]
          by_cases here : place = name :: store.root
          · simp [here]
          · simp [here]
        · refine ended.imp ?_ ?_
          · rintro ⟨returned, rfl⟩
            exact ⟨returned, rfl⟩
          · rintro ⟨returned, other, member, denied⟩
            exact ⟨returned, other, .tail _ member, by rwa [← root, ← obstacle]⟩

end Removal

section Directory

variable {tree : FileTree} {dataDir : Location} {entries : List String}

theorem chunks_plain : FileTree.Plain "chunks" := ⟨by decide, by decide, by decide⟩

/-- A store is opened on a directory that is there. -/
theorem new_existing (hemera : Hemera) (dir : tree.node ("chunks" :: dataDir) = some .dir) (capacity : UInt64) :
    ∃ store : ChunkStore hemera, new dataDir "chunks" capacity tree = (.ok store, tree) ∧
      store.root = "chunks" :: dataDir := by
  have created := chunks_plain.createDirAll_eq dir
  refine ⟨⟨"chunks" :: dataDir, ∅, capacity, 0, by simp⟩, ?_, rfl⟩
  rw [new, Action.bind_ok created]
  rfl

/-- The chunk files that the audit finds damaged. -/
def corruptChunks (hemera : Hemera) (tree : FileTree) (dataDir : Location) (entries : List String) :
    List String :=
  (chunkEntries entries).filter (damaged hemera ("chunks" :: dataDir) tree)

/-- What the audit of a directory does: the damaged chunks are taken out, up to one whose
removal is denied, and nothing else is. -/
theorem auditDirectory_cases (hemera : Hemera)
    (dir : tree.node ("chunks" :: dataDir) = some .dir)
    (lists : Lists tree ("chunks" :: dataDir) entries) :
    ∃ outcome after gone, auditDirectory hemera dataDir entries tree = (outcome, after) ∧
      gone <+: corruptChunks hemera tree dataDir entries ∧
      Cleared ("chunks" :: dataDir) gone tree after ∧
      (outcome = .ok ((chunkEntries entries).countP (intact hemera ("chunks" :: dataDir) tree),
          (corruptChunks hemera tree dataDir entries).length) ∧
        gone = corruptChunks hemera tree dataDir entries ∨
      outcome = .err .denied ∧ ∃ name ∈ corruptChunks hemera tree dataDir entries,
        tree.obstacle (name :: "chunks" :: dataDir) = some .denied) := by
  obtain ⟨store, opened, root⟩ := new_existing hemera dir 0
  have report := store.audit_eq (root.symm ▸ dir) lists.plain
  rw [root] at report
  have chosen : ∀ name ∈ corruptChunks hemera tree dataDir entries, name ∈ entries ∧
      damaged hemera ("chunks" :: dataDir) tree name = true := by
    intro name member
    obtain ⟨listed, bad⟩ := List.mem_filter.mp member
    exact ⟨List.mem_of_mem_filter listed, bad⟩
  have files : ∀ name ∈ corruptChunks hemera tree dataDir entries,
      ∃ bytes, tree.node (name :: store.root) = some (.file bytes) := by
    intro name member
    obtain ⟨bytes, file, -⟩ := damaged_iff.mp (chosen name member).2
    exact ⟨bytes, by rw [root, file]⟩
  obtain ⟨outcome, left, after, gone, removing, before, cleared, ended⟩ :=
    removeAll_files (fun name member => lists.plain name (chosen name member).1)
      ((lists.distinct.filter _).filter _) files
  rw [root] at cleared ended
  have cleaned : Action.when (corruptChunks hemera tree dataDir entries ≠ []) (do
      let storeMut ← (new dataDir "chunks" 0 : Action _ _ (ChunkStore hemera))
      storeMut.within (Action.each (fun hex => (remove hex).void)
        (corruptChunks hemera tree dataDir entries))) tree = (outcome, after) := by
    rw [Action.when]
    split_ifs with some?
    · rw [Action.bind_ok opened, within, removing]
    · rw [not_not.mp some?] at removing
      cases removing
      rfl
  have started : auditDirectory hemera dataDir entries tree =
      (Action.when (corruptChunks hemera tree dataDir entries ≠ []) (do
        let storeMut ← (new dataDir "chunks" 0 : Action _ _ (ChunkStore hemera))
        storeMut.within (Action.each (fun hex => (remove hex).void)
          (corruptChunks hemera tree dataDir entries))) >>= fun _ =>
        pure ((chunkEntries entries).countP (intact hemera ("chunks" :: dataDir) tree),
          (corruptChunks hemera tree dataDir entries).length)) tree := by
    rw [auditDirectory, Action.bind_ok opened, Action.get_bind, Action.lift_bind, report]
    rfl
  rcases ended with ⟨rfl, all⟩ | ⟨rfl, denied⟩
  · exact ⟨_, after, gone, started.trans (Action.bind_ok cleaned), before, cleared, .inl ⟨rfl, all⟩⟩
  · exact ⟨_, after, gone, started.trans (Action.bind_err cleaned), before, cleared,
      .inr ⟨rfl, denied⟩⟩

/-- After an audit that returned every chunk that is left has its hash. -/
theorem Cleared.not_damaged {after : FileTree} {hex : String}
    (cleared : Cleared ("chunks" :: dataDir) (corruptChunks hemera tree dataDir entries) tree after)
    (lists : Lists tree ("chunks" :: dataDir) entries) (isChunk : (strBytes hex).length = 64) :
    damaged hemera ("chunks" :: dataDir) after hex = false := by
  rw [damaged, cleared.nodes]
  by_cases bad : damaged hemera ("chunks" :: dataDir) tree hex = true
  · obtain ⟨bytes, file, -⟩ := damaged_iff.mp bad
    have listed : hex ∈ entries := (lists.complete hex).mp (by rw [FileTree.has, file]; rfl)
    have member : hex ∈ corruptChunks hemera tree dataDir entries :=
      List.mem_filter.mpr ⟨List.mem_filter.mpr ⟨listed, decide_eq_true isChunk⟩, bad⟩
    rw [if_pos (List.mem_map_of_mem member)]
  · have spared : hex :: "chunks" :: dataDir ∉
        (corruptChunks hemera tree dataDir entries).map (· :: "chunks" :: dataDir) := by
      intro member
      obtain ⟨name, chosen, same⟩ := List.mem_map.mp member
      cases same
      exact bad (List.mem_filter.mp chosen).2
    rw [if_neg spared]
    exact Bool.eq_false_iff.mpr bad

end Directory

end ChunkStore

end Foculus.Store

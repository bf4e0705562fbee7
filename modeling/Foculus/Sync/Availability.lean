import Foculus.Sync.Requests

namespace Foculus.Sync

open Data Erasure Store

/-! # When `get_file` returns the file

Where chunk files can be written, `get_file` depends on one number: how many of the shards
lie intact in the chunks directory or are answered by some peer.
-/

namespace SyncNode

variable {hemera : Hemera} {node after : SyncNode} {hash other : String}

/-- Chunk files of these hashes can be read, removed and written. -/
structure Ready (hashes : List String) (node : SyncNode) : Prop where
  dir : node.tree.node node.state.chunksDir = some .dir
  room : ∀ hash ∈ hashes, node.tree.obstacle (hash :: node.state.chunksDir) = none
  leaf : ∀ hash ∈ hashes, node.tree.node (hash :: node.state.chunksDir) ≠ some .dir

section Local

theorem holdsChunk_iff : node.holdsChunk hemera hash = true ↔
    ∃ bytes, node.tree.node (hash :: node.state.chunksDir) = some (.file bytes) ∧
      verifyChunk hemera bytes hash = true := by
  rw [holdsChunk]
  cases node.tree.node (hash :: node.state.chunksDir) with
  | none => simp
  | some found => cases found <;> simp

end Local

section Search

/-- The node after a call that may have written the chunk of one hash. -/
structure Gained (hemera : Hemera) (hash : String) (gains : Prop) (node after : SyncNode) :
    Prop where
  state : after.state = node.state
  obstacle : after.tree.obstacle = node.tree.obstacle
  dir : after.tree.node node.state.chunksDir = node.tree.node node.state.chunksDir
  holds : ∀ other, after.holdsChunk hemera other = true ↔
    node.holdsChunk hemera other = true ∨ (gains ∧ other = hash)
  leaf : ∀ other, node.tree.node (other :: node.state.chunksDir) ≠ some .dir →
    after.tree.node (other :: node.state.chunksDir) ≠ some .dir

theorem Gained.none {gains : Prop} (nothing : ¬ gains) : Gained hemera hash gains node node :=
  ⟨rfl, rfl, rfl, fun _ => by simp [nothing], fun _ => id⟩

theorem Gained.following {between : SyncNode} {gains : Prop}
    (nothing : Gained hemera hash False node between)
    (gained : Gained hemera hash gains between after) : Gained hemera hash gains node after where
  state := gained.state.trans nothing.state
  obstacle := gained.obstacle.trans nothing.obstacle
  dir := by rw [← nothing.state, gained.dir, nothing.state, nothing.dir]
  holds other := by
    rw [gained.holds other, nothing.holds other, false_and, or_false]
  leaf other plain := by
    have same := gained.leaf other
    rw [nothing.state] at same
    exact same (nothing.leaf other plain)

theorem Gained.ready {gains : Prop} {hashes : List String} (gained : Gained hemera hash gains node after)
    (ready : Ready hashes node) : Ready hashes after where
  dir := by rw [gained.state, gained.dir, ready.dir]
  room other member := by rw [gained.state, gained.obstacle, ready.room other member]
  leaf other member := by
    rw [gained.state]
    exact gained.leaf other (ready.leaf other member)

/-- A file of the chunks directory is taken out or put in. -/
theorem gained_of_update {gains : Prop} {found : Option Node} (state : after.state = node.state)
    (obstacle : after.tree.obstacle = node.tree.obstacle)
    (updated : after.tree.node = Function.update node.tree.node (hash :: node.state.chunksDir) found)
    (leaf : found ≠ some .dir)
    (here : after.holdsChunk hemera hash = true ↔ node.holdsChunk hemera hash = true ∨ gains) :
    Gained hemera hash gains node after where
  state := state
  obstacle := obstacle
  dir := by rw [updated, Function.update_of_ne (List.cons_ne_self hash _).symm]
  holds other := by
    by_cases same : other = hash
    · rw [same, here, and_iff_left rfl]
    · have away : other :: node.state.chunksDir ≠ hash :: node.state.chunksDir :=
        fun equal => same (List.cons.inj equal).1
      simp only [same, and_false, or_false, holdsChunk, state, updated, Function.update_of_ne away]
  leaf other plain := by
    by_cases same : other = hash
    · rwa [same, updated, Function.update_self]
    · rwa [updated, Function.update_of_ne fun equal => same (List.cons.inj equal).1]

/-- An intact chunk file is read; one that is not is taken away. -/
theorem tryLocal_ready (plain : FileTree.Plain hash) (cuts : sliced hash = .ok ())
    {hashes : List String} (ready : Ready hashes node) (member : hash ∈ hashes) :
    ∃ found after, tryLocal hemera hash node = (.ok found, after) ∧
      (found.isSome ↔ node.holdsChunk hemera hash = true) ∧ Gained hemera hash False node after ∧
      (found = none → after.tree.has (hash :: node.state.chunksDir) = false) := by
  rw [tryLocal, Action.get_bind, plain.resolve_eq_ite]
  cases standing : node.tree.node (hash :: node.state.chunksDir) with
  | none =>
      have absent : node.tree.has (hash :: node.state.chunksDir) = false := by
        rw [FileTree.has, standing, Option.isSome_none]
      refine ⟨none, node, ?_, iff_of_false (by simp) ?_, .none id, fun _ => absent⟩
      · rw [if_neg (by rw [absent]; exact Bool.false_ne_true)]
        rfl
      · rw [holdsChunk_iff]
        rintro ⟨bytes, file, -⟩
        cases standing.symm.trans file
  | some found =>
      cases found with
      | dir => exact absurd standing (ready.leaf hash member)
      | file bytes =>
          have present : node.tree.has (hash :: node.state.chunksDir) = true := by
            rw [FileTree.has, standing, Option.isSome_some]
          have read : node.tree.read (hash :: node.state.chunksDir) = .ok bytes := by
            rw [FileTree.read, standing]
          have holds : node.holdsChunk hemera hash = true ↔ verifyChunk hemera bytes hash = true := by
            rw [holdsChunk, standing]
          rw [if_pos present]
          dsimp only
          rw [read, Except.mapError, Outcome.ofExcept, Action.lift_bind]
          by_cases verified : verifyChunk hemera bytes hash = true
          · exact ⟨some bytes, node, congrFun (if_pos verified) node,
              iff_of_true rfl (holds.mpr verified), .none id, fun nothing => by cases nothing⟩
          · have leaf := ready.leaf hash member
            have inside : (node.tree.node (hash :: node.state.chunksDir)).isSome := present
            have removed : FileTree.removeFile (hash :: node.state.chunksDir) node.tree =
                (.ok (), node.tree.update hash node.state.chunksDir none ready.dir leaf) := by
              simp only [FileTree.removeFile, dif_neg leaf, dif_pos inside, ready.room hash member]
            have gone : ¬ SyncNode.holdsChunk hemera { node with
                tree := node.tree.update hash node.state.chunksDir none ready.dir leaf } hash =
                  true := by
              simp [holdsChunk]
            refine ⟨none, { node with
              tree := node.tree.update hash node.state.chunksDir none ready.dir leaf }, ?_,
              iff_of_false (by simp) (holds.not.mpr verified),
              gained_of_update rfl rfl rfl (by simp) ?_, fun _ => ?_⟩
            · have cleared : onTree (FileTree.removeFile (hash :: node.state.chunksDir)) node =
                  (.ok (), { node with
                    tree := node.tree.update hash node.state.chunksDir none ready.dir leaf }) := by
                rw [onTree, removed]
              refine (congrFun (if_neg verified) node).trans ?_
              rw [Action.lift_bind, cuts]
              exact Action.bind_ok cleared
            · rw [or_false]
              exact iff_of_false gone (holds.not.mpr verified)
            · simp [FileTree.has]

/-- A chunk that passed its check is written where there was none. -/
theorem writeChunk_gained (plain : FileTree.Plain hash) {bytes : List UInt8}
    (verified : verifyChunk hemera bytes hash = true)
    (dir : node.tree.node node.state.chunksDir = some .dir)
    (room : node.tree.obstacle (hash :: node.state.chunksDir) = none)
    (absent : node.tree.has (hash :: node.state.chunksDir) = false) {gains : Prop} (gain : gains) :
    ∃ after, writeChunk hash bytes node = (.ok (), after) ∧ Gained hemera hash gains node after := by
  have leaf : node.tree.node (hash :: node.state.chunksDir) ≠ some .dir := by
    intro found
    rw [FileTree.has, found] at absent
    cases absent
  have written : FileTree.writePath node.state.chunksDir hash bytes node.tree =
      (.ok (), node.tree.update hash node.state.chunksDir (some (.file bytes)) dir leaf) := by
    rw [FileTree.writePath, Action.get_bind, plain.target_eq]
    change FileTree.write (hash :: node.state.chunksDir) bytes node.tree = _
    simp only [FileTree.write, dif_pos dir, dif_neg leaf, room]
  refine ⟨{ node with
    tree := node.tree.update hash node.state.chunksDir (some (.file bytes)) dir leaf },
    ?_, gained_of_update rfl rfl rfl (by simp) ?_⟩
  · rw [writeChunk, Action.get_bind, onTree, written]
  · exact iff_of_true (holdsChunk_iff.mpr ⟨bytes, Function.update_self .., verified⟩) (.inr gain)

/-- Some peer answers with a chunk that has the hash. -/
def Answered (hemera : Hemera) (hash : String) (answers : List (Option (List UInt8))) : Prop :=
  ∃ bytes, some bytes ∈ answers ∧ verifyChunk hemera bytes hash = true

theorem tryPeers_ready (plain : FileTree.Plain hash) (cuts : sliced hash = .ok ())
    (dir : node.tree.node node.state.chunksDir = some .dir)
    (room : node.tree.obstacle (hash :: node.state.chunksDir) = none)
    (absent : node.tree.has (hash :: node.state.chunksDir) = false)
    (answers : List (Option (List UInt8))) :
    ∃ found after, tryPeers hemera hash answers node = (.ok found, after) ∧
      (found.isSome ↔ Answered hemera hash answers) ∧
      Gained hemera hash (Answered hemera hash answers) node after := by
  induction answers with
  | nil =>
      have nothing : ¬ Answered hemera hash [] := fun ⟨bytes, member, _⟩ => by cases member
      exact ⟨none, node, rfl, iff_of_false (by simp) nothing, .none nothing⟩
  | cons answer rest ih =>
      obtain ⟨found, after, asked, answered, gained⟩ := ih
      cases answer with
      | none =>
          have same : Answered hemera hash (none :: rest) ↔ Answered hemera hash rest := by
            simp [Answered]
          rw [tryPeers, same]
          exact ⟨found, after, asked, answered, gained⟩
      | some bytes =>
          rw [tryPeers]
          by_cases verified : verifyChunk hemera bytes hash = true
          · have here : Answered hemera hash (some bytes :: rest) := ⟨bytes, .head _, verified⟩
            obtain ⟨next, written, gained⟩ := writeChunk_gained plain verified dir room absent here
            rw [if_pos verified, Action.bind_ok written]
            exact ⟨some bytes, next, rfl, iff_of_true rfl here, gained⟩
          · have same : Answered hemera hash (some bytes :: rest) ↔ Answered hemera hash rest := by
              simp [Answered, verified]
            rw [if_neg verified, Action.lift_bind, cuts, same]
            exact ⟨found, after, asked, answered, gained⟩

theorem findChunk_ready (plain : FileTree.Plain hash) (cuts : sliced hash = .ok ())
    {hashes : List String} (ready : Ready hashes node) (member : hash ∈ hashes)
    (answers : List (Option (List UInt8))) :
    ∃ found after, findChunk hemera hash answers node = (.ok found, after) ∧
      (found.isSome ↔ node.holdsChunk hemera hash = true ∨ Answered hemera hash answers) ∧
      Gained hemera hash (Answered hemera hash answers) node after := by
  obtain ⟨present, between, searched, here, gained, gone⟩ := tryLocal_ready plain cuts ready member
  rw [findChunk, Action.bind_ok searched]
  cases present with
  | some bytes =>
      have holds := here.mp rfl
      refine ⟨some bytes, between, rfl, iff_of_true rfl (.inl holds), gained.state, gained.obstacle,
        gained.dir, fun other => ?_, gained.leaf⟩
      rw [gained.holds other, false_and, or_false]
      refine ⟨.inl, ?_⟩
      rintro (held | ⟨-, rfl⟩)
      · exact held
      · exact holds
  | none =>
      have lacks : ¬ node.holdsChunk hemera hash = true :=
        fun holds => absurd (here.mpr holds) (by simp)
      have still := gained.ready ready
      have absent : between.tree.has (hash :: between.state.chunksDir) = false := by
        rw [gained.state]
        exact gone rfl
      obtain ⟨found, after, asked, answered, later⟩ := tryPeers_ready plain cuts still.dir
        (still.room hash member) absent answers
      exact ⟨found, after, asked, by rw [answered, or_iff_right lacks], gained.following later⟩

end Search

section Gather

variable {serve : Nat → String → Option (List UInt8)} {hashes : List String}

/-- The chunk lies here with its hash, or some peer serves one that has it. -/
def available (hemera : Hemera) (serve : Nat → String → Option (List UInt8)) (node : SyncNode)
    (hash : String) : Bool :=
  node.holdsChunk hemera hash || (List.range node.state.peers.length).any fun peer =>
    (serve peer hash).any fun bytes => verifyChunk hemera bytes hash

/-- What the peers answer for a hash, in turn. -/
def served (serve : Nat → String → Option (List UInt8)) (node : SyncNode) (hash : String) :
    List (Option (List UInt8)) :=
  (List.range node.state.peers.length).map fun peer => serve peer hash

theorem available_iff : available hemera serve node hash = true ↔
    node.holdsChunk hemera hash = true ∨ Answered hemera hash (served serve node hash) := by
  rw [available, Bool.or_eq_true, List.any_eq_true, Answered, served]
  refine or_congr_right ⟨?_, ?_⟩
  · rintro ⟨peer, inside, found⟩
    cases answer : serve peer hash with
    | none => simp [answer] at found
    | some bytes =>
        rw [answer] at found
        exact ⟨bytes, List.mem_map.mpr ⟨peer, inside, answer⟩, found⟩
  · rintro ⟨bytes, member, verified⟩
    obtain ⟨peer, inside, answer⟩ := List.mem_map.mp member
    exact ⟨peer, inside, by simp [answer, verified]⟩

/-- Fetching a chunk makes none available that was not. -/
theorem Gained.available (gained : Gained hemera hash (Answered hemera hash (served serve node hash))
    node after) (other : String) :
    after.available hemera serve other = node.available hemera serve other := by
  have peers : served serve after other = served serve node other := by
    rw [served, gained.state, served]
  rw [Bool.eq_iff_iff, available_iff, available_iff, peers, gained.holds other]
  constructor
  · rintro ((holds | ⟨answered, rfl⟩) | answered)
    · exact .inl holds
    · exact .inr answered
    · exact .inr answered
  · rintro (holds | answered)
    · exact .inl (.inl holds)
    · exact .inr answered

/-- The loop stops early with enough shards, or ends with all that are available. -/
theorem gather_ready {answers : Nat → List (Option (List UInt8))} {k : Nat}
    {pending : List (String × Nat)} (ready : Ready hashes node)
    (listed : ∀ wanted ∈ pending, wanted.1 ∈ hashes ∧ FileTree.Plain wanted.1 ∧
      sliced wanted.1 = .ok () ∧ answers wanted.2 = served serve node wanted.1)
    (found : List Shard) :
    ∃ result after, gather hemera answers k found pending node = (.ok result, after) ∧
      let count := pending.countP fun wanted => node.available hemera serve wanted.1
      (result.length = found.length + count ∨
        k ≤ result.length ∧ result.length ≤ found.length + count) := by
  induction pending generalizing found node with
  | nil => exact ⟨found, node, rfl, .inl rfl⟩
  | cons wanted rest ih =>
      obtain ⟨member, plain, cuts, answer⟩ := listed wanted (.head _)
      obtain ⟨chunk, next, searched, got, gained⟩ :=
        findChunk_ready plain cuts ready member (answers wanted.2)
      rw [answer] at got gained
      rw [← available_iff] at got
      have grown : (found ++ chunk.toList.map (bytesToShard wanted.2)).length =
          found.length + if node.available hemera serve wanted.1 then 1 else 0 := by
        rw [List.length_append, List.length_map]
        cases chunk with
        | none =>
            rw [if_neg fun here => absurd (got.mpr here) (by simp)]
            rfl
        | some bytes => rw [if_pos (got.mp rfl)]; rfl
      have same : (fun wanted : String × Nat => next.available hemera serve wanted.1) =
          fun wanted => node.available hemera serve wanted.1 :=
        funext fun wanted => gained.available wanted.1
      rw [gather, Action.bind_ok searched]
      simp only [List.countP_cons]
      by_cases enough : k ≤ (found ++ chunk.toList.map (bytesToShard wanted.2)).length
      · refine ⟨_, next, congrFun (if_pos enough) next, .inr ⟨enough, ?_⟩⟩
        omega
      · obtain ⟨result, after, gathered, counted⟩ := ih (gained.ready ready) (fun other later => by
          obtain ⟨inside, named, sharp, answered⟩ := listed other (.tail _ later)
          refine ⟨inside, named, sharp, ?_⟩
          rw [answered, served, served, gained.state])
          (found ++ chunk.toList.map (bytesToShard wanted.2))
        rw [same] at counted
        refine ⟨result, after, (congrFun (if_neg enough) next).trans gathered, ?_⟩
        dsimp only at counted ⊢
        omega

end Gather

theorem sliced_hexText (digest : Particle) : sliced (hexText digest) = .ok () := by
  refine sliced_ascii ?_ (by rw [hexText_length]; decide)
  intro char member
  have digits : ∀ digit < 16, (Nat.digitChar digit).toNat < 128 := by decide
  obtain ⟨digit, bound, rfl⟩ := mem_hexText member
  exact digits digit bound

/-- The hashes of the shards of a file. -/
def fileHashes (hemera : Hemera) (nebu : Nebu) (writer : SharedState) (data : List UInt8) :
    List String :=
  (shardsOf nebu writer data).map (chunkName hemera)

/-- What a peer serves for the shard of an index. -/
def fetchServed (serve : Nat → String → Option (List UInt8)) (hashes : List String)
    (index peer : Nat) : Option (List UInt8) :=
  hashes[index]?.bind (serve peer)

section Found

variable (hemera : Hemera) (printed : hemera.toHex = hexText) (nebu : Nebu) (lawful : nebu.Lawful)
  (merkle : HemeraTree) (now : UInt64) (name : String) (data : List UInt8) (writer : SharedState)
  (bound : writer.n ≤ 2 ^ 32) (coded : (encode nebu data writer.k writer.n).isSome)
  (reader : SyncNode) (serve : Nat → String → Option (List UInt8))
  (registered : reader.state.registry.get name =
    some (putEntry hemera nebu merkle writer now name data))
  (ready : Ready (fileHashes hemera nebu writer data) reader)
  (free : hemera.CollisionFree (atHand (shardsOf nebu writer data) reader
    (fetchServed serve (fileHashes hemera nebu writer data))))
include printed lawful bound coded registered ready free

/-- The loop ends with some of the available shards, all of them if these are too few. -/
theorem getFile_found :
    let count := (fileHashes hemera nebu writer data).countP (available hemera serve reader)
    ∃ found, (found = count ∨ writer.k ≤ found ∧ found ≤ count) ∧
      (getFile hemera nebu (fetchServed serve (fileHashes hemera nebu writer data)) name reader).1 =
        if found < writer.k then
          .err s!"only {found} of {writer.k} required shards available for '{name}'"
        else .ok data := by
  intro count
  obtain ⟨shards, encoded⟩ := Option.isSome_iff_exists.mp coded
  have made : shardsOf nebu writer data = shards := by rw [shardsOf, encoded, Option.getD_some]
  have codeword := encode_codeword lawful bound encoded
  rw [← made] at codeword
  have hexInjective : Function.Injective hemera.toHex := printed ▸ hexText_injective
  have matching : ∀ shard ∈ shardsOf nebu writer data,
      ∀ chunk ∈ atHand (shardsOf nebu writer data) reader
        (fetchServed serve (fileHashes hemera nebu writer data)),
        verifyChunk hemera chunk (chunkName hemera shard) = true → chunk = shardToBytes shard := by
    intro shard member chunk known verified
    exact free known (.inl (.inl ⟨shard, member, rfl⟩)) (hexInjective (beq_iff_eq.mp verified))
  have indices : (shardsOf nebu writer data).map Shard.index =
      List.range' 0 (shardsOf nebu writer data).length := by
    rw [codeword.indices, codeword.length, List.range_eq_range']
  have hex : ∀ hash ∈ fileHashes hemera nebu writer data,
      FileTree.Plain hash ∧ sliced hash = .ok () := by
    intro hash member
    obtain ⟨shard, -, rfl⟩ := List.mem_map.mp member
    rw [chunkName, printed]
    exact ⟨hexText_plain _, sliced_hexText _⟩
  have listed : ∀ wanted ∈ (fileHashes hemera nebu writer data).zipIdx,
      wanted.1 ∈ fileHashes hemera nebu writer data ∧ FileTree.Plain wanted.1 ∧
        sliced wanted.1 = .ok () ∧
        (List.range reader.state.peers.length).map
          (fetchServed serve (fileHashes hemera nebu writer data) wanted.2) =
            served serve reader wanted.1 := by
    intro wanted walked
    have member := List.fst_mem_of_mem_zipIdx walked
    have here : (fileHashes hemera nebu writer data)[wanted.2]? = some wanted.1 :=
      List.mem_zipIdx_iff_getElem?.mp walked
    refine ⟨member, (hex _ member).1, (hex _ member).2, ?_⟩
    rw [served]
    refine List.map_congr_left fun peer _ => ?_
    rw [fetchServed, here, Option.bind_some]
  obtain ⟨found, after, gathered, counted⟩ : ∃ found after,
      gather hemera (fun index => (List.range reader.state.peers.length).map
        (fetchServed serve (fileHashes hemera nebu writer data) index)) writer.k []
        (fileHashes hemera nebu writer data).zipIdx reader = (.ok found, after) ∧ _ :=
    gather_ready ready listed []
  have genuine : Partial (shardsOf nebu writer data) found := by
    refine gather_partial matching ?_ indices (fun _ member => member) ⟨by simp, by simp⟩ (by simp)
      ?_ gathered
    · intro index chunk member
      obtain ⟨peer, -, answered⟩ := List.mem_map.mp member
      exact .inr ⟨index, peer, answered⟩
    · exact fun held => .inl (.inr ⟨_, held⟩)
  have counts : ((fileHashes hemera nebu writer data).zipIdx.countP fun wanted =>
      available hemera serve reader wanted.1) = count := by
    have firsts := List.zipIdx_map_fst 0 (fileHashes hemera nebu writer data)
    change _ = (fileHashes hemera nebu writer data).countP (available hemera serve reader)
    conv_rhs => rw [← firsts, List.countP_map]
    rfl
  simp only [counts, List.length_nil, Nat.zero_add] at counted
  have run : getFile hemera nebu (fetchServed serve (fileHashes hemera nebu writer data)) name
      reader = (if found.length < writer.k then
        Action.fail s!"only {found.length} of {writer.k} required shards available for '{name}'"
      else Action.lift (decode nebu found writer.k writer.n data.length)) after := by
    rw [getFile, Action.get_bind]
    simp only [registered]
    exact Action.bind_ok gathered
  refine ⟨found.length, counted, ?_⟩
  rw [run]
  by_cases short : found.length < writer.k
  · rw [if_pos short, if_pos short]
    rfl
  · rw [if_neg short, if_neg short, Action.lift_apply]
    exact codeword.decodes found genuine.members genuine.distinct (not_lt.mp short)

end Found

/-- For an entry that `put_file` wrote, whatever lies in its chunk files: with at least `k`
shards intact here or at some peer `get_file` returns the data that was put, and with fewer
it fails and says how many there are. -/
theorem getFile_counts_available (hemera : Hemera) (printed : hemera.toHex = hexText)
    (nebu : Nebu) (lawful : nebu.Lawful) (merkle : HemeraTree) (now : UInt64) (name : String)
    (data : List UInt8) (writer : SharedState) (bound : writer.n ≤ 2 ^ 32)
    (coded : (encode nebu data writer.k writer.n).isSome) (reader : SyncNode)
    (serve : Nat → String → Option (List UInt8))
    (registered : reader.state.registry.get name =
      some (putEntry hemera nebu merkle writer now name data))
    (ready : Ready (fileHashes hemera nebu writer data) reader)
    (free : hemera.CollisionFree (atHand (shardsOf nebu writer data) reader
      (fetchServed serve (fileHashes hemera nebu writer data)))) :
    let count := (fileHashes hemera nebu writer data).countP (available hemera serve reader)
    (getFile hemera nebu (fetchServed serve (fileHashes hemera nebu writer data)) name reader).1 =
      if writer.k ≤ count then .ok data
      else .err s!"only {count} of {writer.k} required shards available for '{name}'" := by
  intro count
  obtain ⟨found, counted, returned⟩ := getFile_found hemera printed nebu lawful merkle now name data
    writer bound coded reader serve registered ready free
  rw [returned]
  by_cases enough : writer.k ≤ count
  · rw [if_pos enough, if_neg]
    rcases counted with same | ⟨held, -⟩
    · rw [same]
      exact not_lt.mpr enough
    · exact not_lt.mpr held
  · have all : found = count := counted.resolve_right fun ⟨held, most⟩ => enough (held.trans most)
    rw [if_neg enough, all, if_pos (not_le.mp enough)]

/-! ## A file that has been synchronised needs no peer -/

section Synced

variable {json : WireJson} {hashes : List String} {answers : Nat → Option (List UInt8)}
  {wanted : String × Nat}

/-- The chunk file has its hash, or there is none. -/
def Clean (hemera : Hemera) (node : SyncNode) (hash : String) : Prop :=
  node.holdsChunk hemera hash = true ∨ node.tree.has (hash :: node.state.chunksDir) = false

/-- Chunk files of these hashes can be written, and those that are there are not damaged. -/
structure Intact (hemera : Hemera) (hashes : List String) (node : SyncNode) : Prop where
  dir : node.tree.node node.state.chunksDir = some .dir
  room : ∀ hash ∈ hashes, node.tree.obstacle (hash :: node.state.chunksDir) = none
  clean : ∀ hash ∈ hashes, Clean hemera node hash

theorem Intact.ready (intact : Intact hemera hashes node) : Ready hashes node where
  dir := intact.dir
  room := intact.room
  leaf hash member found := by
    rcases intact.clean hash member with holds | absent
    · obtain ⟨bytes, file, -⟩ := holdsChunk_iff.mp holds
      cases found.symm.trans file
    · rw [FileTree.has, found] at absent
      cases absent

/-- What a call that returns leaves of the chunks. -/
structure Keeping (hemera : Hemera) (hashes : List String) (node after : SyncNode) : Prop where
  intact : Intact hemera hashes node → Intact hemera hashes after
  holds : ∀ hash, node.holdsChunk hemera hash = true → after.holdsChunk hemera hash = true

theorem Keeping.refl : Keeping hemera hashes node node := ⟨id, fun _ => id⟩

theorem Keeping.trans {between : SyncNode} (early : Keeping hemera hashes node between)
    (late : Keeping hemera hashes between after) : Keeping hemera hashes node after :=
  ⟨late.intact ∘ early.intact, fun hash held => late.holds hash (early.holds hash held)⟩

/-- A file that is written beside the chunks directory, or as a chunk with its hash. -/
theorem keeping_of_update {place : Location} {bytes : List UInt8} (state : after.state = node.state)
    (obstacle : after.tree.obstacle = node.tree.obstacle)
    (updated : after.tree.node = Function.update node.tree.node place (some (.file bytes)))
    (away : place ≠ node.state.chunksDir)
    (chunk : ∀ hash, place = hash :: node.state.chunksDir → verifyChunk hemera bytes hash = true) :
    Keeping hemera hashes node after := by
  have holds : ∀ hash, node.holdsChunk hemera hash = true → after.holdsChunk hemera hash = true := by
    intro hash held
    by_cases here : hash :: node.state.chunksDir = place
    · refine holdsChunk_iff.mpr ⟨bytes, ?_, chunk hash here.symm⟩
      rw [state, updated, here, Function.update_self]
    · rw [holdsChunk, state, updated, Function.update_of_ne here]
      exact held
  refine ⟨fun intact => ⟨?_, ?_, ?_⟩, holds⟩
  · rw [state, updated, Function.update_of_ne away.symm, intact.dir]
  · intro hash member
    rw [state, obstacle, intact.room hash member]
  · intro hash member
    by_cases here : hash :: node.state.chunksDir = place
    · refine .inl (holdsChunk_iff.mpr ⟨bytes, ?_, chunk hash here.symm⟩)
      rw [state, updated, here, Function.update_self]
    · refine (intact.clean hash member).imp (holds hash) fun absent => ?_
      rw [FileTree.has, state, updated, Function.update_of_ne here]
      exact absent

theorem saveRegistry_keeping {json : Json} (saved : saveRegistry json node = (.ok (), after)) :
    Keeping hemera hashes node after := by
  rw [saveRegistry, Action.get_bind] at saved
  obtain ⟨written, state⟩ := onTree_ok saved
  have touches := FileTree.write_touches ("registry.json" :: node.state.dataDir)
    (json.pretty node.state.registry) node.tree
  rw [written] at touches
  refine keeping_of_update state touches.obstacle (FileTree.write_ok written) ?_ ?_
  · rw [SharedState.chunksDir, Ne, List.cons.injEq, not_and]
    exact fun same => absurd same (by decide)
  · intro hash same
    have lengths := congrArg List.length same
    simp [SharedState.chunksDir] at lengths

/-- A chunk that the peer answers rightly is there afterwards. -/
theorem fetchChunk_keeping (printed : hemera.toHex = hexText) {warns : Bool}
    (fetched : fetchChunk hemera warns answers wanted node = (.ok (), after)) :
    Keeping hemera hashes node after ∧ (FileTree.Plain wanted.1 → Clean hemera node wanted.1 →
      (∃ bytes, answers wanted.2 = some bytes ∧ verifyChunk hemera bytes wanted.1 = true) →
        after.holdsChunk hemera wanted.1 = true) := by
  rw [fetchChunk, Action.get_bind] at fetched
  cases resolved : node.tree.resolve node.state.chunksDir wanted.1 with
  | some place =>
      rw [resolved] at fetched
      cases fetched
      refine ⟨.refl, fun plain clean _ => clean.resolve_right fun absent => ?_⟩
      rw [plain.resolve_eq_ite, absent] at resolved
      cases resolved
  | none =>
      cases answer : answers wanted.2 with
      | none =>
          rw [resolved, answer] at fetched
          cases fetched
          refine ⟨.refl, ?_⟩
          rintro - - ⟨bytes, other, -⟩
          cases other
      | some bytes =>
          rw [resolved, answer] at fetched
          dsimp only at fetched
          by_cases verified : verifyChunk hemera bytes wanted.1 = true
          · rw [if_pos verified, writeChunk, Action.get_bind] at fetched
            obtain ⟨written, state⟩ := onTree_ok fetched
            have plain : FileTree.Plain wanted.1 := by
              rw [← eq_of_beq verified, printed]
              exact hexText_plain _
            have touches := plain.writePath_touches node.state.chunksDir bytes node.tree
            rw [written] at touches
            have updated := plain.writePath_ok written
            refine ⟨keeping_of_update state touches.obstacle updated ?_ ?_, fun _ _ _ => ?_⟩
            · exact List.cons_ne_self _ _
            · intro hash same
              rwa [← (List.cons.inj same).1]
            · refine holdsChunk_iff.mpr ⟨bytes, ?_, verified⟩
              rw [state, updated, Function.update_self]
          · rw [if_neg verified] at fetched
            have unchanged : after = node := by
              cases warns <;> exact (congrArg Prod.snd fetched).symm
            rw [unchanged]
            refine ⟨.refl, ?_⟩
            rintro - - ⟨other, same, right⟩
            cases same
            exact absurd right verified

/-- So is every chunk of the walk that the peer answers rightly. -/
theorem fetches_keep (printed : hemera.toHex = hexText) {warns : Bool} {pending : List (String × Nat)}
    (intact : Intact hemera hashes node)
    (fetched : Action.each (fetchChunk hemera warns answers) pending node = (.ok (), after)) :
    Keeping hemera hashes node after ∧ ∀ wanted ∈ pending, wanted.1 ∈ hashes →
      FileTree.Plain wanted.1 →
      (∃ bytes, answers wanted.2 = some bytes ∧ verifyChunk hemera bytes wanted.1 = true) →
        after.holdsChunk hemera wanted.1 = true := by
  induction pending generalizing node with
  | nil =>
      cases fetched
      exact ⟨.refl, fun _ member => by cases member⟩
  | cons first rest ih =>
      obtain ⟨⟨⟩, between, called, continued⟩ := Action.bind_eq_ok_iff.mp fetched
      obtain ⟨(kept : Keeping hemera hashes node between), here⟩ := fetchChunk_keeping printed called
      obtain ⟨later, others⟩ := ih (kept.intact intact) continued
      refine ⟨kept.trans later, fun wanted member inside plain right => ?_⟩
      cases member with
      | head => exact later.holds _ (here plain (intact.clean _ inside) right)
      | tail _ member => exact others wanted member inside plain right

/-- Where nothing is in the way, right answers are all taken. -/
theorem fetches_return (printed : hemera.toHex = hexText) {warns : Bool}
    {pending : List (String × Nat)} (intact : Intact hemera hashes node)
    (right : ∀ wanted ∈ pending, wanted.1 ∈ hashes ∧ FileTree.Plain wanted.1 ∧
      ∀ bytes, answers wanted.2 = some bytes → verifyChunk hemera bytes wanted.1 = true) :
    (Action.each (fetchChunk hemera warns answers) pending node).1 = .ok () := by
  induction pending generalizing node with
  | nil => rfl
  | cons first rest ih =>
      obtain ⟨member, plain, verified⟩ := right first List.mem_cons_self
      have returned : ∃ after, fetchChunk hemera warns answers first node = (.ok (), after) := by
        rw [fetchChunk, Action.get_bind, plain.resolve_eq_ite]
        split_ifs with present
        · exact ⟨node, rfl⟩
        · cases answer : answers first.2 with
          | none => exact ⟨node, rfl⟩
          | some bytes =>
              obtain ⟨after, written, -⟩ := writeChunk_gained plain (verified bytes answer) intact.dir
                (intact.room _ member) (Bool.eq_false_iff.mpr present) trivial
              exact ⟨after, by simpa only [if_pos (verified bytes answer)] using written⟩
      obtain ⟨between, called⟩ := returned
      have kept : Keeping hemera hashes node between := (fetchChunk_keeping printed called).1
      rw [Action.each, Action.bind_ok called]
      exact ih (kept.intact intact) fun wanted later => right wanted (List.mem_cons_of_mem _ later)

end Synced

section Steps

variable {json : WireJson} {hashes : List String}

/-- A peer answers with the bytes of its chunk file. -/
theorem fetchChunk_served (digest : Particle) {bytes : List UInt8}
    (file : node.tree.node (hexText digest :: node.state.chunksDir) = some (.file bytes))
    (small : bytes.length < 2 ^ 32) :
    fetchChunkFromPeer (node.handleConnection hemera json.toJson
      (chunkRequest (hexText digest))) = some bytes := by
  have width : (strBytes (hexText digest)).length < 2 ^ 32 := by
    rw [strBytes_hexText]
    decide
  have present : node.tree.has (hexText digest :: node.state.chunksDir) = true := by
    rw [FileTree.has, file, Option.isSome_some]
  have read : node.chunkFile (hexText digest) = some bytes := by
    rw [chunkFile, (hexText_plain digest).resolve_eq_ite, if_pos present, Option.bind_some,
      FileTree.read, file]
    rfl
  rw [fetchChunk_handled width, read, Option.map_some, Nat.mod_eq_of_lt small, List.take_length]

/-- After a `sync_with` that returns, the chunks that the peer answered rightly are here. -/
theorem settleResponse_keeps (printed : hemera.toHex = hexText) {peer : String}
    {exchange : Exchange} {response : RegistryResponse} (intact : Intact hemera hashes node)
    (settled : settleResponse hemera json.toJson peer exchange response node = (.ok (), after)) :
    Intact hemera hashes after ∧ ∀ wanted ∈ exchange.wanted after.state.registry,
      wanted.1 ∈ hashes → FileTree.Plain wanted.1 →
      (∃ bytes, exchange.answers wanted.2 = some bytes ∧
        verifyChunk hemera bytes wanted.1 = true) → after.holdsChunk hemera wanted.1 = true := by
  obtain ⟨counts, merged, saved, merging, saving, fetching, -⟩ :=
    settleResponse_steps printed settled
  have mergedIntact : Intact hemera hashes merged := by
    rw [(merge_ok merging).2]
    exact ⟨intact.dir, intact.room, intact.clean⟩
  have savedIntact := (saveRegistry_keeping saving).intact mergedIntact
  obtain ⟨kept, fetched⟩ := fetches_keep printed savedIntact fetching
  exact ⟨kept.intact savedIntact, fetched⟩

/-- A fetch leaves the files there were and the chunk that was answered. -/
theorem fetchChunk_files {warns : Bool} {answers : Nat → Option (List UInt8)}
    {wanted : String × Nat} {contents : Set (List UInt8)}
    (answered : ∀ position bytes, answers position = some bytes → bytes ∈ contents)
    (holding : node.tree.Holding contents)
    (fetched : fetchChunk hemera warns answers wanted node = (.ok (), after)) :
    after.tree.Holding contents := by
  rw [fetchChunk, Action.get_bind] at fetched
  cases resolved : node.tree.resolve node.state.chunksDir wanted.1 with
  | some place =>
      rw [resolved] at fetched
      cases fetched
      exact holding
  | none =>
      cases answer : answers wanted.2 with
      | none =>
          rw [resolved, answer] at fetched
          cases fetched
          exact holding
      | some bytes =>
          rw [resolved, answer] at fetched
          dsimp only at fetched
          split_ifs at fetched
          · exact writeChunk_holding (answered _ bytes answer) holding fetched
          · have unchanged : after = node := by
              cases warns <;> exact (congrArg Prod.snd fetched).symm
            rw [unchanged]
            exact holding

/-- A `sync_with` that returns leaves the files there were, the chunks that were
answered and the registry. -/
theorem settleResponse_files {json : WireJson} (printed : hemera.toHex = hexText) {peer : String}
    {exchange : Exchange} {response : RegistryResponse} {contents : Set (List UInt8)}
    (answered : ∀ position bytes, exchange.answers position = some bytes → bytes ∈ contents)
    (holding : node.tree.Holding contents)
    (settled : settleResponse hemera json.toJson peer exchange response node = (.ok (), after)) :
    after.tree.Holding (contents ∪ {json.pretty after.state.registry}) := by
  obtain ⟨counts, merged, saved, merging, saving, fetching, state, -⟩ :=
    settleResponse_steps printed settled
  have mergedHolding : merged.tree.Holding contents := by
    rw [(merge_ok merging).2]
    exact holding
  rw [state] at fetching ⊢
  have savedHolding : saved.tree.Holding (contents ∪ {json.pretty merged.state.registry}) := by
    rw [saveRegistry, Action.get_bind] at saving
    have written := FileTree.write_ok (onTree_ok saving).1
    have wider : merged.tree.Holding (contents ∪ {json.pretty merged.state.registry}) :=
      FileTree.Holding.mono mergedHolding Set.subset_union_left
    have text : ∀ bytes, some (Node.file (json.pretty merged.state.registry)) =
        some (.file bytes) → bytes ∈ contents ∪ {json.pretty merged.state.registry} := by
      intro bytes file
      cases file
      exact .inr rfl
    intro place bytes found
    exact FileTree.Holding.update wider written text found
  have kept : ∀ wanted ∈ exchange.wanted merged.state.registry, ∀ current next : SyncNode,
      current.tree.Holding (contents ∪ {json.pretty merged.state.registry}) →
      fetchChunk hemera true exchange.answers wanted current = (.ok (), next) →
      next.tree.Holding (contents ∪ {json.pretty merged.state.registry}) := by
    intro wanted _ current next held called
    exact fetchChunk_files (fun position bytes answer => .inl (answered position bytes answer))
      held called
  intro place bytes found
  exact Action.each_ok (fun current : SyncNode =>
    current.tree.Holding (contents ∪ {json.pretty merged.state.registry})) kept @savedHolding fetching
    found

end Steps

/-- A file that was put on a node without peers, and whose entry another node holds after
a `sync_with` that returned, is read there without any peer. -/
theorem synced_file_needs_no_peer (hemera : Hemera) (printed : hemera.toHex = hexText)
    (nebu : Nebu) (lawful : nebu.Lawful) (merkle : HemeraTree) (json : WireJson) (now : UInt64)
    (name : String) (data : List UInt8) (writer written : SyncNode)
    (bound : writer.state.n ≤ 2 ^ 32) (alone : writer.state.peers = [])
    (put : putFile hemera nebu merkle json.toJson now name data writer = (.ok (), written))
    (small : ∀ hash ∈ fileHashes hemera nebu writer.state data, ∀ bytes,
      written.tree.node (hash :: written.state.chunksDir) = some (.file bytes) →
        bytes.length < 2 ^ 32)
    (reader synced : SyncNode) (peer : String) (exchange : Exchange) (response : RegistryResponse)
    (settled : settleResponse hemera json.toJson peer exchange response reader = (.ok (), synced))
    (answers : ∀ wanted ∈ exchange.wanted synced.state.registry, exchange.answers wanted.2 =
      fetchChunkFromPeer (written.handleConnection hemera json.toJson (chunkRequest wanted.1)))
    (registered : synced.state.registry.get name =
      some (putEntry hemera nebu merkle writer.state now name data))
    (intact : Intact hemera (fileHashes hemera nebu writer.state data) reader)
    (free : hemera.CollisionFree
      (atHand (shardsOf nebu writer.state data) synced fun _ _ => none)) :
    (getFile hemera nebu (fun _ _ => none) name synced).1 = .ok data := by
  obtain ⟨encoded, -⟩ := putFile_ok put
  have codeword := encode_codeword lawful bound encoded
  have coded : (encode nebu data writer.state.k writer.state.n).isSome := by
    rw [encoded, Option.isSome_some]
  obtain ⟨syncedIntact, fetched⟩ := settleResponse_keeps printed intact settled
  have here : ∀ hash ∈ fileHashes hemera nebu writer.state data,
      synced.holdsChunk hemera hash = true := by
    intro hash listed
    obtain ⟨shard, member, rfl⟩ := List.mem_map.mp listed
    have kept : written.holdsChunk hemera (chunkName hemera shard) = true := by
      refine (putFile_holdsChunk printed put).mpr (.inr (List.mem_map_of_mem ?_))
      exact List.mem_filter.mpr ⟨member, by rw [alone]; rfl⟩
    have entryMember : putEntry hemera nebu merkle writer.state now name data ∈
        exchange.merged.order synced.state.registry :=
      (exchange.merged.iterates _).mem_iff.mpr
        (GSet.mem_values.mpr ⟨name, (Option.filter_eq_some_iff.mp registered).1⟩)
    have walked : chunkName hemera shard ∈
        (exchange.merged.order synced.state.registry).flatMap FileEntry.shardHashes :=
      List.mem_flatMap.mpr ⟨_, entryMember, listed⟩
    obtain ⟨position, inside, found⟩ := List.mem_iff_getElem.mp walked
    have wanted : (chunkName hemera shard, position) ∈ exchange.wanted synced.state.registry :=
      List.mem_zipIdx_iff_getElem?.mpr (found ▸ List.getElem?_eq_getElem inside)
    have named : chunkName hemera shard = hexText (digest hemera shard) := by
      rw [chunkName, printed]
    refine fetched _ wanted listed (by rw [named]; exact hexText_plain _) ?_
    rw [answers _ wanted, named]
    obtain ⟨bytes, file, verified⟩ := holdsChunk_iff.mp kept
    rw [named] at file verified
    have short := small _ listed bytes (named.symm ▸ file)
    exact ⟨bytes, fetchChunk_served _ file short, verified⟩
  have silent : (fun _ _ => none) =
      fetchServed (fun _ _ => none) (fileHashes hemera nebu writer.state data) := by
    funext index peer
    rw [fetchServed]
    cases (fileHashes hemera nebu writer.state data)[index]? <;> rfl
  rw [silent] at free ⊢
  obtain ⟨found, counted, returned⟩ := getFile_found hemera printed nebu lawful merkle now name data
    writer.state bound coded synced (fun _ _ => none) registered syncedIntact.ready free
  have all : (fileHashes hemera nebu writer.state data).countP
      (available hemera (fun _ _ => none) synced) = writer.state.n := by
    rw [List.countP_eq_length.mpr fun hash listed => available_iff.mpr (.inl (here hash listed)),
      fileHashes, List.length_map, codeword.length]
  have enough := (encode_params encoded).2.2
  rw [returned, if_neg]
  rw [all] at counted
  omega

section Example

/-- The chunk of both shards of the one byte 7. -/
def lone : List UInt8 := shardToBytes ⟨0, [7]⟩

theorem lone_shards : shardsOf naiveNebu home.state [7] = [⟨0, [7]⟩, ⟨1, [7]⟩] := by
  rw [naiveNebu_eq]
  decide +kernel

theorem lone_coded : (encode naiveNebu [7] home.state.k home.state.n).isSome = true := by
  have shards := lone_shards
  rw [shardsOf] at shards
  cases coded : encode naiveNebu [7] home.state.k home.state.n with
  | none =>
      rw [coded] at shards
      cases shards
  | some _ => rfl

theorem lone_bytes (shard : Shard) (member : shard ∈ shardsOf naiveNebu home.state [7]) :
    shardToBytes shard = lone := by
  rw [lone_shards] at member
  simp only [List.mem_cons, List.not_mem_nil, or_false] at member
  rcases member with rfl | rfl <;> rfl

theorem lone_hashes : fileHashes .truncating naiveNebu home.state [7] =
    [hexText (Hemera.truncating.hash lone), hexText (Hemera.truncating.hash lone)] := by
  rw [fileHashes, lone_shards]
  rfl

theorem bare_intact (node : SyncNode) (dir : node.state.dataDir = []) (tree : node.tree = chunksTree)
    (hashes : List String) : Intact .truncating hashes node where
  dir := by rw [SharedState.chunksDir, dir, tree]; rfl
  room hash member := by rw [tree]; rfl
  clean hash member := by
    right
    rw [SharedState.chunksDir, dir, tree, FileTree.has, chunksTree, FileTree.update_node,
      Function.update_of_ne (by simp)]
    rfl

theorem getFile_counts_available_away :
    (getFile .truncating naiveNebu (fetchServed (fun _ _ => some lone)
      (fileHashes .truncating naiveNebu home.state [7])) "notes" away).1 = .ok [7] := by
  have registered : away.state.registry.get "notes" =
      some (putEntry .truncating naiveNebu .truncating home.state 5 "notes" [7]) :=
    GSet.get_insert_of_absent rfl rfl
  have free : Hemera.truncating.CollisionFree (atHand (shardsOf naiveNebu home.state [7]) away
      (fetchServed (fun _ _ => some lone)
        (fileHashes .truncating naiveNebu home.state [7]))) := by
    have alike : Hemera.truncating.CollisionFree {lone, lone} := Hemera.collisionFree_of_eq rfl
    refine alike.mono ?_
    rintro bytes ((⟨shard, member, rfl⟩ | ⟨place, file⟩) | ⟨index, peer, answered⟩)
    · exact .inl (lone_bytes shard member)
    · exact absurd file (chunksTree_no_file place bytes)
    · obtain ⟨hash, -, same⟩ := Option.bind_eq_some_iff.mp answered
      exact .inl (Option.some.inj same).symm
  have counts := getFile_counts_available .truncating rfl naiveNebu naiveNebu_lawful .truncating 5
    "notes" [7] home.state (by decide) lone_coded away (fun _ _ => some lone) registered
    (bare_intact away rfl rfl _).ready free
  rw [counts]
  refine if_pos (List.countP_pos_iff.mpr ⟨hexText (Hemera.truncating.hash lone), ?_, ?_⟩)
  · rw [lone_hashes]
    exact List.mem_cons_self
  · exact available_iff.mpr (.inr ⟨lone, List.mem_singleton_self _, beq_self_eq_true _⟩)

end Example

end SyncNode

end Foculus.Sync

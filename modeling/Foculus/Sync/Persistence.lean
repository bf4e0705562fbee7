import Foculus.Store.Novelty
import Foculus.Sync.Exchange
import Foculus.Sync.Serve
import Mathlib.Logic.Equiv.List

namespace Foculus.Sync

open Data Store

/-! # What `background_sync` leaves in `registry.json`

A round saves the registry when the number of live files has grown.  An entry that
takes the place of another one and a tombstone of a name that is not held change the
registry and not that number, so they wait for a later round that saves.
-/

/-- Reading a registry back from what was written gives the registry. -/
structure Json.Lawful (json : Json) : Prop where
  reads_back : ∀ registry : GSet,
    (String.fromUTF8? ⟨(json.pretty registry).toArray⟩).bind json.parse = some registry

namespace Exchange

/-- The exchange while no other task runs. -/
def alone (exchange : Exchange) : Exchange := { exchange with meanwhile := id }

variable (hemera : Hemera) (exchange : Exchange) (registry : GSet)

/-- The peer answers, and the root that it claims is the root of what it sent. -/
def Attended (response : RegistryResponse) : Prop :=
  exchange.response = .ok response ∧ exchange.computedRoot hemera response = response.merkleRoot

/-- The registry after the exchange. -/
def learned : GSet :=
  match exchange.response with
  | .error _ => registry
  | .ok response =>
      if exchange.computedRoot hemera response ≠ response.merkleRoot then registry
      else (GSet.validatedMergeAt hemera (exchange.readings response) (0, 0) registry).2

/-- An entry of the response is new to the registry. -/
def Brings : Prop :=
  ∃ response, exchange.Attended hemera response ∧
    ∃ reading ∈ exchange.readings response, GSet.Novel hemera registry reading

/-- The entries that are accepted bring or revive more live files than they bury. -/
def Grows : Prop :=
  ∃ response, exchange.Attended hemera response ∧
    GSet.tally hemera GSet.buries registry (exchange.readings response) <
      GSet.tally hemera GSet.revives registry (exchange.readings response)

/-- Nothing that the peers send is new to the registry. -/
def Quiet (rounds : List Exchange) : Prop := ∀ exchange ∈ rounds, ¬ exchange.Brings hemera registry

/-- Some response makes the live files more, and what comes later brings nothing. -/
def Renewed : GSet → List Exchange → Prop
  | _, [] => False
  | registry, exchange :: rest =>
      (exchange.Grows hemera registry ∧ Quiet hemera (exchange.learned hemera registry) rest) ∨
        Renewed (exchange.learned hemera registry) rest

section Attended

variable {hemera exchange registry} {response : RegistryResponse} {counts : Nat × Nat}
  {merged : GSet}

theorem Attended.only (attended : exchange.Attended hemera response) {other : RegistryResponse}
    (also : exchange.Attended hemera other) : other = response :=
  (Except.ok.inj (attended.1.symm.trans also.1)).symm

theorem Attended.learned_eq (attended : exchange.Attended hemera response)
    (ran : GSet.validatedMergeAt hemera (exchange.readings response) (0, 0) registry =
      (.ok counts, merged)) :
    exchange.learned hemera registry = merged := by
  rw [learned, attended.1]
  simp only
  rw [if_neg (not_not.mpr attended.2), ran]

theorem Attended.grows_iff (attended : exchange.Attended hemera response)
    (ran : GSet.validatedMergeAt hemera (exchange.readings response) (0, 0) registry =
      (.ok counts, merged)) :
    exchange.Grows hemera registry ↔ registry.len < merged.len := by
  have balance := GSet.validatedMergeAt_len ran
  constructor
  · rintro ⟨other, also, more⟩
    cases attended.only also
    omega
  · intro more
    exact ⟨response, attended, by omega⟩

theorem Attended.learned_eq_iff (attended : exchange.Attended hemera response)
    (ran : GSet.validatedMergeAt hemera (exchange.readings response) (0, 0) registry =
      (.ok counts, merged)) :
    exchange.learned hemera registry = registry ↔ ¬ exchange.Brings hemera registry := by
  rw [attended.learned_eq ran, GSet.validatedMergeAt_eq_iff ran]
  constructor
  · rintro stale ⟨other, also, reading, member, novel⟩
    cases attended.only also
    exact stale reading member novel
  · intro nothing reading member novel
    exact nothing ⟨response, attended, reading, member, novel⟩

end Attended

end Exchange

namespace SyncNode

abbrev registryPath (node : SyncNode) : Location := "registry.json" :: node.state.dataDir

/-- What a restart makes of `registry.json`. -/
def loadRegistry (json : Json) (node : SyncNode) : Option GSet :=
  if node.tree.has node.registryPath then
    match node.tree.read node.registryPath with
    | .ok bytes => (String.fromUTF8? ⟨bytes.toArray⟩).map fun text => (json.parse text).getD .new
    | .error _ => none
  else some .new

/-- A restart loads the registry that is in memory, and peers are sent that one. -/
structure Persisted (hemera : Hemera) (json : Json) (node : SyncNode) : Prop where
  loaded : loadRegistry json node = some node.state.registry
  served : node.serveRegistry hemera json = .sent (msgRegistryResponse :: writeBytes
    (json.response node.state.registry (GSet.merkleRoot hemera node.state.registry.values)))

section Rounds

variable {hemera : Hemera} {json : Json} {exchange : Exchange} {node after : SyncNode}
  {disk : Walk} {rounds : List Exchange} {stored : GSet}

/-- What is served is what would be loaded, or the memory when there is no file. -/
theorem persisted_iff :
    Persisted hemera json node ↔ loadRegistry json node = some node.state.registry := by
  refine ⟨Persisted.loaded, fun loaded => ⟨loaded, ?_⟩⟩
  simp only [loadRegistry, registryPath] at loaded
  simp only [serveRegistry]
  by_cases present : node.tree.has ("registry.json" :: node.state.dataDir) = true
  · rw [if_pos present] at loaded ⊢
    cases read : node.tree.read ("registry.json" :: node.state.dataDir) with
    | error fault =>
        rw [read] at loaded
        cases loaded
    | ok bytes =>
        rw [read] at loaded
        simp only at loaded ⊢
        rw [loaded]
  · rw [if_neg present]

theorem loadRegistry_congr (dir : after.state.dataDir = node.state.dataDir)
    (same : after.tree.node node.registryPath = node.tree.node node.registryPath) :
    loadRegistry json after = loadRegistry json node := by
  have path : after.registryPath = node.registryPath := by
    rw [registryPath, registryPath, dir]
  have has : after.tree.has node.registryPath = node.tree.has node.registryPath := by
    rw [FileTree.has, same, FileTree.has]
  have read : after.tree.read node.registryPath = node.tree.read node.registryPath := by
    rw [FileTree.read, same, FileTree.read]
  rw [loadRegistry, path, has, read, loadRegistry]

theorem loadRegistry_of_saved (lawful : json.Lawful)
    (saved : saveRegistry json node = (.ok (), after)) :
    loadRegistry json after = some node.state.registry := by
  rw [saveRegistry, Action.get_bind] at saved
  obtain ⟨written, state⟩ := onTree_ok saved
  have content : after.tree.node after.registryPath =
      some (.file (json.pretty node.state.registry)) := by
    rw [FileTree.write_ok written, registryPath, state, Function.update_self]
  have back := lawful.reads_back node.state.registry
  obtain ⟨text, decoded, parsed⟩ := Option.bind_eq_some_iff.mp back
  simp only [loadRegistry, FileTree.has, FileTree.read, content, decoded, Option.isSome_some,
    if_true, Option.map_some, parsed, Option.getD_some]

/-- A chunk that is kept has its hash for its name, so it does not take the place of
the registry. -/
theorem fetchChunk_ok (printed : hemera.toHex = hexText) {warns : Bool}
    {answers : Nat → Option (List UInt8)} {wanted : String × Nat}
    (fetched : fetchChunk hemera warns answers wanted node = (.ok (), after)) :
    after.state = node.state ∧
      after.tree.node node.registryPath = node.tree.node node.registryPath := by
  rw [fetchChunk, Action.get_bind] at fetched
  cases resolved : node.tree.resolve node.state.chunksDir wanted.1 with
  | some place =>
      rw [resolved] at fetched
      cases fetched
      exact ⟨rfl, rfl⟩
  | none =>
      cases answer : answers wanted.2 with
      | none =>
          rw [resolved, answer] at fetched
          cases fetched
          exact ⟨rfl, rfl⟩
      | some bytes =>
          rw [resolved, answer] at fetched
          simp only at fetched
          split_ifs at fetched with verified
          · rw [writeChunk, Action.get_bind] at fetched
            obtain ⟨written, state⟩ := onTree_ok fetched
            have plain : FileTree.Plain wanted.1 := by
              rw [← eq_of_beq verified, printed]
              exact hexText_plain _
            refine ⟨state, ?_⟩
            rw [plain.writePath_ok written, Function.update_of_ne]
            intro same
            have lengths := congrArg List.length same
            simp [registryPath, SharedState.chunksDir] at lengths
          · cases warns with
            | false =>
                cases fetched
                exact ⟨rfl, rfl⟩
            | true =>
                have unchanged := congrArg Prod.snd fetched
                cases unchanged
                exact ⟨rfl, rfl⟩

theorem learned_evolves (hemera : Hemera) (exchange : Exchange) (registry : GSet) :
    registry.Evolves (exchange.learned hemera registry) := by
  rw [Exchange.learned]
  cases exchange.response with
  | error text => exact .refl _
  | ok response =>
      simp only
      split_ifs
      · exact .refl _
      · exact GSet.validatedMergeAt_evolves _ _ _

/-- What a round that returns has done. -/
structure Attends (hemera : Hemera) (json : Json) (exchange : Exchange) (node after : SyncNode) :
    Prop where
  state : after.state =
    { node.state with registry := exchange.learned hemera node.state.registry }
  unchanged : exchange.learned hemera node.state.registry = node.state.registry ↔
    ¬ exchange.Brings hemera node.state.registry
  brings : exchange.Grows hemera node.state.registry → exchange.Brings hemera node.state.registry
  saves : exchange.Grows hemera node.state.registry →
    loadRegistry json after = some after.state.registry
  keeps : ¬ exchange.Grows hemera node.state.registry →
    loadRegistry json after = loadRegistry json node

theorem Attends.idle (unattended : ∀ response, ¬ exchange.Attended hemera response)
    (same : exchange.learned hemera node.state.registry = node.state.registry) :
    Attends hemera json exchange node node where
  state := by rw [same]
  unchanged := iff_of_true same fun ⟨response, attended, _⟩ => unattended response attended
  brings := fun ⟨response, attended, _⟩ => absurd attended (unattended response)
  saves := fun ⟨response, attended, _⟩ => absurd attended (unattended response)
  keeps := fun _ => rfl

/-- What a merge that returns has done to the node. -/
theorem merge_ok {response : RegistryResponse} {counts : Nat × Nat}
    (merged : merge hemera exchange response node = (.ok counts, after)) :
    GSet.validatedMergeAt hemera (exchange.readings response) (0, 0) node.state.registry =
        (.ok counts, after.state.registry) ∧
      after = { node with state.registry := after.state.registry } := by
  rw [merge, onRegistry] at merged
  rcases run : GSet.validatedMergeAt hemera (exchange.readings response) (0, 0)
    node.state.registry with ⟨outcome, registry⟩
  rw [run] at merged
  cases merged
  exact ⟨rfl, rfl⟩

/-- Fetching the chunks leaves the state and the stored registry as they are. -/
theorem each_fetchChunk_ok (printed : hemera.toHex = hexText) {warns : Bool}
    {answers : Nat → Option (List UInt8)} {wanted : List (String × Nat)}
    (fetched : Action.each (fetchChunk hemera warns answers) wanted node = (.ok (), after)) :
    after.state = node.state ∧ loadRegistry json after = loadRegistry json node := by
  have kept : after.state = node.state ∧
      after.tree.node node.registryPath = node.tree.node node.registryPath := by
    refine Action.each_ok (fun current => current.state = node.state ∧
      current.tree.node node.registryPath = node.tree.node node.registryPath) ?_ ⟨rfl, rfl⟩ fetched
    rintro item - state next ⟨sameState, sameNode⟩ called
    obtain ⟨nextState, nextNode⟩ := fetchChunk_ok printed called
    have path : state.registryPath = node.registryPath := by
      rw [registryPath, sameState]
    rw [path] at nextNode
    exact ⟨nextState.trans sameState, nextNode.trans sameNode⟩
  exact ⟨kept.1, loadRegistry_congr (by rw [kept.1]) kept.2⟩

/-- The registry is saved when the count has grown and is left alone otherwise. -/
theorem attends_of_attended (lawful : json.Lawful) {response : RegistryResponse}
    {counts : Nat × Nat} {merged saved : SyncNode} (attended : exchange.Attended hemera response)
    (ran : GSet.validatedMergeAt hemera (exchange.readings response) (0, 0) node.state.registry =
      (.ok counts, merged.state.registry))
    (moved : merged = { node with state.registry := merged.state.registry })
    (saving : Action.when (node.state.registry.len < merged.state.registry.len)
      (saveRegistry json) merged = (.ok (), saved))
    (sameState : after.state = saved.state)
    (sameLoad : loadRegistry json after = loadRegistry json saved) :
    Attends hemera json exchange node after := by
  have learned := attended.learned_eq ran
  have grows := attended.grows_iff ran
  have unchanged := attended.learned_eq_iff ran
  have savedState : saved.state = merged.state := by
    rw [Action.when] at saving
    split_ifs at saving
    · exact saveRegistry_ok saving
    · cases saving
      rfl
  refine ⟨?_, unchanged, ?_, ?_, ?_⟩
  · rw [sameState, savedState, learned, moved]
  · intro more
    by_contra nothing
    have same := unchanged.mpr nothing
    rw [learned] at same
    have longer := grows.mp more
    rw [same] at longer
    exact lt_irrefl _ longer
  · intro more
    rw [Action.when, if_pos (grows.mp more)] at saving
    rw [sameLoad, sameState, savedState, loadRegistry_of_saved lawful saving]
  · intro same
    rw [Action.when, if_neg fun more => same (grows.mpr more)] at saving
    cases saving
    rw [sameLoad]
    exact loadRegistry_congr (by rw [moved]) (by rw [moved])

theorem backgroundRound_attends (printed : hemera.toHex = hexText) (lawful : json.Lawful)
    (run : backgroundRound hemera json exchange.alone node = (.ok (), after)) :
    Attends hemera json exchange node after := by
  rw [backgroundRound] at run
  cases answered : exchange.response with
  | error text =>
      have silent : exchange.alone.response = .error text := answered
      rw [silent] at run
      cases run
      refine .idle ?_ (by rw [Exchange.learned, answered])
      rintro response ⟨other, -⟩
      rw [answered] at other
      cases other
  | ok response =>
      have sent : exchange.alone.response = .ok response := answered
      rw [sent] at run
      simp only [Action.modify_bind] at run
      by_cases matched : exchange.computedRoot hemera response = response.merkleRoot
      · have alike : exchange.alone.computedRoot hemera response = response.merkleRoot := matched
        rw [if_neg (not_not.mpr alike), Action.get_bind] at run
        obtain ⟨counts, merged, merging, run⟩ := Action.bind_eq_ok_iff.mp run
        rw [Action.get_bind] at run
        obtain ⟨_, -, run⟩ := Action.lift_bind_eq_ok_iff.mp run
        obtain ⟨⟨⟩, saved, saving, fetching⟩ := Action.bind_eq_ok_iff.mp run
        obtain ⟨ran, moved⟩ := merge_ok merging
        obtain ⟨fetchedState, fetchedLoad⟩ := each_fetchChunk_ok printed fetching
        exact attends_of_attended lawful ⟨answered, matched⟩ ran moved saving fetchedState
          fetchedLoad
      · have mismatched : exchange.alone.computedRoot hemera response ≠ response.merkleRoot := matched
        rw [if_pos mismatched] at run
        cases run
        refine .idle ?_ (by rw [Exchange.learned, answered]; exact if_pos matched)
        rintro other ⟨also, same⟩
        cases answered.symm.trans also
        exact matched same

/-- The stored registry is the memory when nothing is unsaved at the start and nothing
is brought, or when nothing is brought after the last round that saves. -/
theorem rounds_loaded_iff (printed : hemera.toHex = hexText) (lawful : json.Lawful)
    (loaded : loadRegistry json node = some stored)
    (trails : node.state.registry.Evolves stored → node.state.registry = stored)
    (run : Action.each (backgroundRound hemera json) (rounds.map Exchange.alone) node =
      (.ok (), after)) :
    loadRegistry json after = some after.state.registry ↔
      (stored = node.state.registry ∧ Exchange.Quiet hemera node.state.registry rounds) ∨
        Exchange.Renewed hemera node.state.registry rounds := by
  induction rounds generalizing node stored with
  | nil =>
      cases run
      rw [loaded, Option.some_inj, Exchange.Renewed, or_false]
      exact (and_iff_left fun _ member => by cases member).symm
  | cons exchange rest ih =>
      obtain ⟨⟨⟩, between, called, continued⟩ := Action.bind_eq_ok_iff.mp run
      have attends := backgroundRound_attends printed lawful called
      have memory : between.state.registry = exchange.learned hemera node.state.registry := by
        rw [attends.state]
      have evolves : node.state.registry.Evolves between.state.registry :=
        memory ▸ learned_evolves _ _ _
      rw [Exchange.Renewed, ← memory]
      by_cases grows : exchange.Grows hemera node.state.registry
      · rw [ih (attends.saves grows) (fun _ => rfl) continued]
        have brings := attends.brings grows
        simp only [true_and, grows]
        exact (or_iff_right fun quiet => quiet.2 exchange (.head _) brings).symm
      · have behind : between.state.registry.Evolves stored → between.state.registry = stored := by
          intro ahead
          have same := trails (evolves.trans ahead)
          exact ahead.antisymm (same ▸ evolves)
        rw [ih ((attends.keeps grows).trans loaded) behind continued]
        simp only [grows, false_and, false_or]
        refine or_congr_left ?_
        constructor
        · rintro ⟨same, quiet⟩
          have still : node.state.registry = stored := trails (same ▸ evolves)
          have kept : between.state.registry = node.state.registry := same.symm.trans still.symm
          have nothing := attends.unchanged.mp (memory.symm.trans kept)
          refine ⟨still.symm, List.forall_mem_cons.mpr ⟨nothing, ?_⟩⟩
          rwa [kept] at quiet
        · rintro ⟨same, quiet⟩
          obtain ⟨nothing, quiet⟩ := List.forall_mem_cons.mp quiet
          have kept := memory.trans (attends.unchanged.mpr nothing)
          rw [kept]
          exact ⟨same, quiet⟩

theorem mergeFromDisk_ok (run : mergeFromDisk json disk node = (.ok (), after)) :
    ∃ stored, loadRegistry json node = some stored ∧
      after = { node with state.registry := node.state.registry.merge (disk.order stored) } := by
  rw [mergeFromDisk, Action.get_bind] at run
  have nothing : disk.order .new = [] := by
    have walked := disk.iterates .new
    exact List.perm_nil.mp (walked.trans (.of_eq (by simp [GSet.values, GSet.new])))
  by_cases present : node.tree.has node.registryPath = true
  · rw [if_pos present] at run
    obtain ⟨bytes, reading, run⟩ := Action.lift_bind_eq_ok_iff.mp run
    obtain ⟨parsed, parsing, run⟩ := Action.lift_bind_eq_ok_iff.mp run
    have read := mapError_eq_ok_iff.mp (Outcome.ofExcept_eq_ok.mp reading)
    rw [parseRegistry] at parsing
    cases decoded : String.fromUTF8? ⟨bytes.toArray⟩ with
    | none =>
        rw [decoded] at parsing
        cases parsing
    | some text =>
        rw [decoded] at parsing
        cases parsing
        refine ⟨(json.parse text).getD .new, ?_, ?_⟩
        · rw [loadRegistry, if_pos present, read]
          simp only [decoded, Option.map_some]
        · cases run
          cases json.parse text with
          | none =>
              simp only [Option.getD_none, nothing]
              rfl
          | some registry => rfl
  · rw [if_neg present] at run
    cases run
    refine ⟨.new, by rw [loadRegistry, if_neg present], ?_⟩
    rw [nothing]
    rfl

/-- What is merged from the disk is held, unless something newer is. -/
theorem merge_trails (registry stored : GSet) (disk : Walk)
    (ahead : (registry.merge (disk.order stored)).Evolves stored) :
    registry.merge (disk.order stored) = stored := by
  apply GSet.eq_of_getElem?
  intro name
  rcases ahead name with same | ⟨entry, held, rfl, newer⟩
  · exact same.symm
  · have walked : entry ∈ disk.order stored :=
      (disk.iterates stored).mem_iff.mpr (GSet.mem_values.mpr ⟨_, held⟩)
    exact absurd newer (not_lt.mpr (GSet.stamp_le_merge_rank registry walked))

theorem backgroundSync_loaded_iff (printed : hemera.toHex = hexText) (lawful : json.Lawful)
    {exchanges : Nat → Exchange}
    (returned : backgroundSync hemera json disk (fun peer => (exchanges peer).alone) node =
      (.ok (), after)) :
    loadRegistry json after = some after.state.registry ↔
      ∃ stored, loadRegistry json node = some stored ∧
        let start := node.state.registry.merge (disk.order stored)
        let rounds := (List.range node.state.peers.length).map exchanges
        (stored = start ∧ Exchange.Quiet hemera start rounds) ∨
          Exchange.Renewed hemera start rounds := by
  obtain ⟨⟨⟩, start, merged, run⟩ := Action.bind_eq_ok_iff.mp returned
  obtain ⟨stored, loaded, moved⟩ := mergeFromDisk_ok merged
  have memory : start.state.registry = node.state.registry.merge (disk.order stored) := by
    rw [moved]
  have still : loadRegistry json start = some stored :=
    (loadRegistry_congr (by rw [moved]) (by rw [moved])).trans loaded
  have alone : (List.range start.state.peers.length).map (fun peer => (exchanges peer).alone) =
      ((List.range node.state.peers.length).map exchanges).map Exchange.alone := by
    rw [moved, List.map_map]
    rfl
  rw [Action.get_bind, alone] at run
  have trails : start.state.registry.Evolves stored → start.state.registry = stored := by
    rw [memory]
    exact merge_trails _ _ _
  rw [rounds_loaded_iff printed lawful still trails run, memory]
  constructor
  · intro condition
    exact ⟨stored, loaded, condition⟩
  · rintro ⟨other, also, condition⟩
    cases loaded.symm.trans also
    exact condition

end Rounds

/-- After a background sync that returns, `registry.json` holds the registry in memory
exactly when it did after the merge from the disk and no response brought anything new, or
when the live files grew in some round and nothing new was brought later. -/
theorem backgroundSync_persists_iff (hemera : Hemera) (printed : hemera.toHex = hexText)
    (json : Json) (lawful : json.Lawful) (disk : Walk) (exchanges : Nat → Exchange)
    (node after : SyncNode)
    (returned : backgroundSync hemera json disk (fun peer => (exchanges peer).alone) node =
      (.ok (), after)) :
    Persisted hemera json after ↔
      ∃ stored, loadRegistry json node = some stored ∧
        let start := node.state.registry.merge (disk.order stored)
        let rounds := (List.range node.state.peers.length).map exchanges
        (stored = start ∧ Exchange.Quiet hemera start rounds) ∨
          Exchange.Renewed hemera start rounds :=
  persisted_iff.trans (backgroundSync_loaded_iff printed lawful returned)

section Example

instance : Encodable Char := .ofLeftInverse Char.toNat Char.ofNat Char.ofNat_toNat

instance : Encodable String :=
  .ofLeftInverse String.toList String.ofList fun _ => String.ofList_toList

instance : Encodable UInt64 :=
  .ofLeftInverse UInt64.toNat UInt64.ofNat fun _ => UInt64.ofNat_toNat

instance : Encodable FileEntry :=
  .ofLeftInverse
    (fun entry => (entry.name, entry.originalLen, entry.k, entry.n, entry.shardHashes,
      entry.timestamp, entry.entryHash, entry.deviceId, entry.dasRoot, entry.shardCopies,
      entry.deleted))
    (fun (name, originalLen, k, n, shardHashes, timestamp, entryHash, deviceId, dasRoot,
        shardCopies, deleted) =>
      { name, originalLen, k, n, shardHashes, timestamp, entryHash, deviceId, dasRoot,
        shardCopies, deleted })
    fun _ => rfl

def digits (registry : GSet) : List UInt8 :=
  strBytes (String.ofList (Nat.toDigits 10 (Encodable.encode registry.files.toList)))

/-- A stand-in that lets the model be run: the decimal digits of one number for the
entries with their keys. -/
def numbered : Json where
  pretty := digits
  parse text :=
    let entries : Option (List (String × FileEntry)) :=
      Encodable.decode (Nat.ofDigitChars 10 text.toList 0)
    entries.map fun entries => { files := Std.ExtTreeMap.ofList entries }
  response registry merkleRoot := digits registry ++ strBytes merkleRoot

theorem fromUTF8?_strBytes (text : String) :
    String.fromUTF8? ⟨(strBytes text).toArray⟩ = some text := by
  have bytes : (⟨(strBytes text).toArray⟩ : ByteArray) = text.toByteArray := by
    rw [strBytes, Array.toArray_toList]
    rfl
  rw [String.fromUTF8?, bytes, dif_pos text.isValidUTF8]
  rfl

theorem ofList_toList (files : Std.ExtTreeMap String FileEntry) :
    Std.ExtTreeMap.ofList files.toList = files := by
  apply Std.ExtTreeMap.ext_getElem?
  intro name
  cases found : files[name]? with
  | some entry =>
      refine Std.ExtTreeMap.getElem?_ofList_of_mem Std.ReflCmp.compare_self
        files.distinct_keys_toList ?_
      rwa [Std.ExtTreeMap.mem_toList_iff_getElem?_eq_some]
  | none =>
      refine Std.ExtTreeMap.getElem?_ofList_of_contains_eq_false ?_
      rw [Std.ExtTreeMap.map_fst_toList_eq_keys, List.contains_eq_mem, decide_eq_false_iff_not,
        Std.ExtTreeMap.mem_keys, Std.ExtTreeMap.mem_iff_isSome_getElem?, found]
      exact Bool.false_ne_true

theorem numbered_lawful : numbered.Lawful where
  reads_back registry := by
    have number : Nat.ofDigitChars 10 (Nat.toDigits 10 (Encodable.encode registry.files.toList)) 0 =
        Encodable.encode registry.files.toList :=
      Nat.ofDigitChars_toDigits (by decide) (by decide)
    simp only [numbered, digits, fromUTF8?_strBytes, Option.bind_some, String.toList_ofList, number,
      Encodable.encodek, Option.map_some, ofList_toList]

/-- Nothing has been saved in the directory of the node. -/
theorem loadRegistry_of_bare {node : SyncNode} (bare : node.tree.has node.registryPath = false) :
    loadRegistry numbered node = some .new := by
  rw [loadRegistry, bare, if_neg Bool.false_ne_true]

theorem values_insert_new (entry : FileEntry) : (GSet.new.insert entry).values = [entry] := by
  have inserted : GSet.new.insert entry = { files := GSet.new.files.insert entry.name entry } := by
    rcases GSet.new.insert_cases entry with same | held
    · have found : (GSet.new.insert entry).getRaw entry.name = some entry :=
        GSet.getRaw_insert_newer (by simp [GSet.getRaw, GSet.new])
      rw [same] at found
      simp [GSet.getRaw, GSet.new] at found
    · exact held
  have member : entry ∈ (GSet.new.insert entry).values := by
    rw [inserted]
    exact GSet.mem_values.mpr ⟨entry.name, Std.ExtTreeMap.getElem?_insert_self⟩
  have single : (GSet.new.insert entry).values.length = 1 := by
    rw [inserted, GSet.values, List.length_map, Std.ExtTreeMap.length_toList]
    simp [GSet.new, Std.ExtTreeMap.size_insert]
  obtain ⟨only, listed⟩ := List.length_eq_one_iff.mp single
  rw [listed, List.mem_singleton] at member
  rw [listed, member]

/-- What a peer offers is attended to. -/
theorem offering_attended (entry : FileEntry) (answer : Option (List UInt8)) :
    (offering entry (rootOf entry) answer).Attended .truncating
      ⟨GSet.new.insert entry, rootOf entry⟩ := by
  refine ⟨rfl, ?_⟩
  change GSet.merkleRoot .truncating (GSet.new.insert entry).values = _
  rw [values_insert_new]
  rfl

/-- A note passes `validate` and is new to a registry that holds none or an older one. -/
theorem note_novel {registry : GSet} {hash : String} {timestamp : UInt64} {deleted : Bool}
    (past : timestamp.toNat ≤ 1000) (room : registry.files.size < maxRegistryEntries)
    (newer : registry.rank "notes" < ((note [hash] timestamp deleted).stamp : WithBot Stamp)) :
    GSet.Novel .truncating registry (note [hash] timestamp deleted, 1000) := by
  have fits : (1000 : UInt64).toNat + maxClockDriftMs < 2 ^ 64 := by decide
  refine ⟨FileEntry.validateAt_ok ?_ rfl (beq_self_eq_true _) fits ?_, .inl room, newer⟩
  · change ("notes" : String).isEmpty = false
    decide
  · change timestamp.toNat ≤ 1000 + 3600000
    omega

/-- What is offered and new is brought. -/
theorem offering_brings {registry : GSet} {entry : FileEntry} {answer : Option (List UInt8)}
    (novel : GSet.Novel .truncating registry (entry, 1000)) :
    (offering entry (rootOf entry) answer).Brings .truncating registry := by
  refine ⟨_, offering_attended entry answer, (entry, 1000), ?_, novel⟩
  change (entry, 1000) ∈ ((GSet.new.insert entry).values.zipIdx.map fun _ => _)
  rw [values_insert_new]
  exact .head _

theorem backgroundSync_persists_iff_new_note :
    Persisted .truncating numbered
      (backgroundSync .truncating numbered .sorted (fun _ => bringing.alone) joined).2 := by
  have returned : (backgroundSync .truncating numbered .sorted (fun _ => bringing.alone)
      joined).1 = .ok () := by decide +kernel
  refine (backgroundSync_persists_iff .truncating rfl numbered numbered_lawful .sorted
    (fun _ => bringing) joined _ (Action.eq_of_fst_ok returned)).mpr ?_
  refine ⟨.new, loadRegistry_of_bare (by decide), .inr (.inl ⟨⟨_, offering_attended _ _, ?_⟩, ?_⟩)⟩
  · decide +kernel
  · intro exchange member
    cases member

/-- The tombstone of a file that this node never had. -/
def burying : Exchange := offering (note ["x"] 6 true) (rootOf (note ["x"] 6 true)) none

/-- One peer brings a file, the other one a later version of it. -/
def inTurn (peer : Nat) : Exchange :=
  if peer = 0 then bringing
  else offering (note ["y"] 6 false) (rootOf (note ["y"] 6 false)) none

/-- A tombstone and an overwritten file that are accepted and not saved. -/
theorem updates_stay_unsaved :
    let buried := backgroundSync .truncating numbered .sorted (fun _ => burying.alone) joined
    let rewritten := backgroundSync .truncating numbered .sorted (fun peer => (inTurn peer).alone)
      { joined with state.peers := ["away", "back"] }
    buried.1 = .ok () ∧ ¬ Persisted .truncating numbered buried.2 ∧
      rewritten.1 = .ok () ∧ ¬ Persisted .truncating numbered rewritten.2 := by
  intro buried rewritten
  have buriedOk : buried.1 = .ok () := by decide +kernel
  have rewrittenOk : rewritten.1 = .ok () := by decide +kernel
  refine ⟨buriedOk, ?_, rewrittenOk, ?_⟩
  · rw [persisted_iff, backgroundSync_loaded_iff rfl numbered_lawful
      (Action.eq_of_fst_ok buriedOk)]
    rintro ⟨stored, loaded, ⟨-, quiet⟩ | ⟨⟨response, ⟨answered, -⟩, more⟩, -⟩ | never⟩
    · cases (loadRegistry_of_bare (by decide)).symm.trans loaded
      exact quiet burying (.head _) (offering_brings (note_novel (by decide) (by decide +kernel)
        (by decide +kernel)))
    · cases (loadRegistry_of_bare (by decide)).symm.trans loaded
      cases answered
      revert more
      decide +kernel
    · exact never
  · rw [persisted_iff, backgroundSync_loaded_iff rfl numbered_lawful
      (Action.eq_of_fst_ok rewrittenOk)]
    rintro ⟨stored, loaded, condition⟩
    cases (loadRegistry_of_bare (by decide)).symm.trans loaded
    rcases condition with ⟨-, quiet⟩ | ⟨-, quiet⟩ | ⟨⟨response, ⟨answered, -⟩, more⟩, -⟩ | never
    · exact quiet bringing (.head _) (offering_brings (note_novel (by decide) (by decide +kernel)
        (by decide +kernel)))
    · exact quiet (inTurn 1) (.head _) (offering_brings (note_novel (by decide)
        (by decide +kernel) (by decide +kernel)))
    · cases answered
      revert more
      decide +kernel
    · exact never

end Example

end SyncNode

end Foculus.Sync

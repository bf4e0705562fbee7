import Foculus.Store.LiveCount
import Foculus.Sync.Placement

namespace Foculus.Sync

open Data Erasure Store

/-! # Exchanges with a peer (`sync_with` and `background_sync` in `src/node.rs`)

The registry of a peer is any registry, its claimed root and the hashes in its
entries are any strings.  What other tasks do while the registry is fetched is
part of the exchange; from the merge to the last chunk the state is locked.
-/

structure RegistryResponse where
  registry : GSet
  merkleRoot : String

/-- A walk over `files.values()`. -/
structure Walk where
  order : GSet → List FileEntry
  iterates : ∀ registry : GSet, registry.Iterates (order registry)

def Walk.sorted : Walk where
  order := GSet.values
  iterates _ := .refl _

/-- One exchange: the response or the error of the request, what the other tasks make
of the registry and the files meanwhile, the walks over the entries received and
merged, the clock at each validation, and the answer to the hash at each position. -/
structure Exchange where
  response : Except String RegistryResponse
  meanwhile : GSet × FileTree → GSet × FileTree
  received : Walk
  merged : Walk
  clock : Nat → UInt64
  answers : Nat → Option (List UInt8)

namespace Exchange

def readings (exchange : Exchange) (response : RegistryResponse) : List (FileEntry × UInt64) :=
  (exchange.received.order response.registry).zipIdx.map fun (entry, turn) =>
    (entry, exchange.clock turn)

def computedRoot (hemera : Hemera) (exchange : Exchange) (response : RegistryResponse) : String :=
  GSet.merkleRoot hemera (exchange.received.order response.registry)

/-- The hashes of the entries with their positions in the walk. -/
def wanted (exchange : Exchange) (registry : GSet) : List (String × Nat) :=
  ((exchange.merged.order registry).flatMap FileEntry.shardHashes).zipIdx

end Exchange

namespace SyncNode

def onRegistry {α : Type} (action : Action GSet String α) : Action SyncNode String α := fun node =>
  let (outcome, registry) := action node.state.registry
  (outcome, { node with state.registry := registry })

def afterOthers (exchange : Exchange) (node : SyncNode) : SyncNode :=
  let (registry, tree) := exchange.meanwhile (node.state.registry, node.tree)
  { state := { node.state with registry }, tree }

/-- `validated_merge` of the entries received. -/
def merge (hemera : Hemera) (exchange : Exchange) (response : RegistryResponse) :
    Action SyncNode String (Nat × Nat) :=
  onRegistry (GSet.validatedMergeAt hemera (exchange.readings response) (0, 0))

/-- `&text[..16]`. -/
def first16 (text : String) : Outcome String String := do
  sliced text
  return (String.fromUTF8? ⟨((strBytes text).take 16).toArray⟩).getD ""

/-- The chunk of one hash is asked for unless its path exists; `warns` is whether a
chunk with another hash is reported. -/
def fetchChunk (hemera : Hemera) (warns : Bool) (answers : Nat → Option (List UInt8)) :
    String × Nat → Action SyncNode String Unit := fun (hashHex, position) => do
  let node ← Action.get
  match node.tree.resolve node.state.chunksDir hashHex, answers position with
  | none, some bytes =>
      if verifyChunk hemera bytes hashHex then writeChunk hashHex bytes
      else Action.when (warns = true) (Action.lift (sliced hashHex))
  | _, _ => pure ()

/-- `sync_with` from the arrival of the response on. -/
def settleResponse (hemera : Hemera) (json : Json) (peer : String) (exchange : Exchange)
    (response : RegistryResponse) : Action SyncNode String Unit :=
  if exchange.computedRoot hemera response ≠ response.merkleRoot then do
    let claimed ← Action.lift (first16 response.merkleRoot)
    let computed ← Action.lift (first16 (exchange.computedRoot hemera response))
    Action.fail s!"completeness check failed: peer {peer} sent registry with mismatched Merkle root\n  claimed: {claimed}\n  computed: {computed}"
  else do
    let before ← Action.get
    let _counts ← merge hemera exchange response
    let after ← Action.get
    saveRegistry json
    let _new ← Action.lift
      (Outcome.expect (checkedSub after.state.registry.len before.state.registry.len))
    Action.each (fetchChunk hemera true exchange.answers) (exchange.wanted after.state.registry)

def syncWith (hemera : Hemera) (json : Json) (peer : String) (exchange : Exchange) :
    Action SyncNode String Unit := do
  let response ← Action.lift (Outcome.ofExcept exchange.response)
  Action.modify (afterOthers exchange)
  settleResponse hemera json peer exchange response

/-- `from_str` of `read_to_string`; that a registry does not parse is no error. -/
def parseRegistry (json : Json) (bytes : List UInt8) : Outcome String (Option GSet) :=
  match String.fromUTF8? ⟨bytes.toArray⟩ with
  | none => .err "stream did not contain valid UTF-8"
  | some text => .ok (json.parse text)

/-- The registry on disk is merged without validation. -/
def mergeFromDisk (json : Json) (disk : Walk) : Action SyncNode String Unit := do
  let node ← Action.get
  let path := "registry.json" :: node.state.dataDir
  if node.tree.has path then do
    let bytes ← Action.lift (Outcome.ofExcept ((node.tree.read path).mapError Fault.text))
    let parsed ← Action.lift (parseRegistry json bytes)
    Action.modify fun node =>
      { node with
        state.registry := parsed.elim node.state.registry (node.state.registry.merge ∘ disk.order) }
  else pure ()

/-- One round of `background_sync`; a peer that cannot be reached or claims another root
is passed over. -/
def backgroundRound (hemera : Hemera) (json : Json) (exchange : Exchange) :
    Action SyncNode String Unit :=
  match exchange.response with
  | .error _ => pure ()
  | .ok response => do
      Action.modify (afterOthers exchange)
      if exchange.computedRoot hemera response ≠ response.merkleRoot then pure ()
      else do
        let before ← Action.get
        let _counts ← merge hemera exchange response
        let after ← Action.get
        let _new ← Action.lift
          (Outcome.expect (checkedSub after.state.registry.len before.state.registry.len))
        Action.when (before.state.registry.len < after.state.registry.len) (saveRegistry json)
        Action.each (fetchChunk hemera false exchange.answers)
          (exchange.wanted after.state.registry)

/-- `background_sync`, with one exchange for each peer. -/
def backgroundSync (hemera : Hemera) (json : Json) (disk : Walk) (exchanges : Nat → Exchange) :
    Action SyncNode String Unit := do
  mergeFromDisk json disk
  let node ← Action.get
  Action.each (backgroundRound hemera json)
    ((List.range node.state.peers.length).map exchanges)

section Slices

theorem strBytes_ascii {text : String} (ascii : ∀ char ∈ text.toList, char.toNat < 128) :
    strBytes text = text.toList.map fun char => char.val.toUInt8 := by
  have encoded : text.toList.flatMap String.utf8EncodeChar =
      text.toList.map fun char => char.val.toUInt8 := by
    rw [List.map_eq_flatMap]
    refine List.flatMap_congr fun char member => String.utf8EncodeChar_eq_singleton ?_
    rw [Char.utf8Size_eq_one_iff, UInt32.le_iff_toNat_le]
    exact Nat.le_of_lt_succ (ascii char member)
  rw [strBytes, String.toUTF8, ← String.utf8Encode_toList, List.utf8Encode, encoded]
  simp

/-- A text of single bytes can be cut at every place that it has. -/
theorem sliced_ascii {text : String} (ascii : ∀ char ∈ text.toList, char.toNat < 128)
    (long : 16 ≤ text.length) : sliced text = .ok () := by
  rw [sliced, strBytes_ascii ascii]
  refine if_pos ⟨by rwa [List.length_map, String.length_toList], ?_⟩
  rw [List.getD_eq_getElem?_getD, List.getElem?_map]
  cases found : text.toList[16]? with
  | none => decide
  | some char =>
      have small := ascii char (List.mem_of_getElem? found)
      have same : char.val.toUInt8.toNat = char.toNat :=
        Nat.mod_eq_of_lt (show char.toNat < 2 ^ 8 by omega)
      rw [Option.map_some, Option.getD_some, same]
      omega

/-- Cutting the root that the node computes never aborts. -/
theorem sliced_computedRoot {hemera : Hemera} (printed : hemera.toHex = hexText)
    (exchange : Exchange) (response : RegistryResponse) :
    sliced (exchange.computedRoot hemera response) = .ok () := by
  rw [Exchange.computedRoot, GSet.merkleRoot, printed]
  split_ifs
  · refine sliced_ascii ?_ (by decide)
    intro char member
    rw [String.toList_ofList] at member
    rw [List.eq_of_mem_replicate member]
    decide
  · refine sliced_ascii ?_ (by rw [hexText_length]; decide)
    intro char member
    have digits : ∀ digit < 16, (Nat.digitChar digit).toNat < 128 := by decide
    obtain ⟨digit, bound, rfl⟩ := mem_hexText member
    exact digits digit bound

end Slices

section Aborts

variable {hemera : Hemera} {json : Json} {exchange : Exchange} {response : RegistryResponse}
  {node after : SyncNode} {answers : Nat → Option (List UInt8)} {hash : String} {position : Nat}

theorem onTree_panic_iff {α : Type} {action : Action FileTree Fault α} :
    (onTree action node).1 = .panic ↔ (action node.tree).1 = .panic := by
  rw [onTree]
  rcases action node.tree with ⟨outcome, tree⟩
  cases outcome <;> simp

theorem writeChunk_ne_panic (hex : String) (bytes : List UInt8) (node : SyncNode) :
    (writeChunk hex bytes node).1 ≠ .panic := by
  rw [writeChunk, Action.get_bind, Ne, onTree_panic_iff]
  exact FileTree.writePath_ne_panic _ _ _ _

theorem saveRegistry_ne_panic (json : Json) (node : SyncNode) :
    (saveRegistry json node).1 ≠ .panic := by
  rw [saveRegistry, Action.get_bind, Ne, onTree_panic_iff]
  exact FileTree.write_ne_panic _ _ _

/-- The chunk is missing here, the peer answers another one, and the hash has no
character boundary at which the warning could cut it. -/
def Garbled (hemera : Hemera) (answers : Nat → Option (List UInt8)) (wanted : String × Nat)
    (node : SyncNode) : Prop :=
  node.tree.resolve node.state.chunksDir wanted.1 = none ∧
    (∃ bytes, answers wanted.2 = some bytes ∧ verifyChunk hemera bytes wanted.1 = false) ∧
    sliced wanted.1 = .panic

theorem fetchChunk_panic_iff {warns : Bool} {wanted : String × Nat} :
    (fetchChunk hemera warns answers wanted node).1 = .panic ↔
      warns = true ∧ Garbled hemera answers wanted node := by
  rw [fetchChunk, Action.get_bind, Garbled]
  cases node.tree.resolve node.state.chunksDir wanted.1 with
  | some place => simp
  | none =>
      cases answers wanted.2 with
      | none => simp
      | some bytes =>
          by_cases verified : verifyChunk hemera bytes wanted.1 = true
          · simp [verified, writeChunk_ne_panic]
          · cases warns with
            | false => simp [verified, Action.when]
            | true => simp [verified, Action.when]

/-- A validation during the merge computes a limit beyond the range of the clock. -/
def Overruns (hemera : Hemera) (exchange : Exchange) (response : RegistryResponse) : Prop :=
  ∃ pair ∈ exchange.readings response, pair.1.overruns hemera pair.2 = true

/-- Of the accepted entries, the tombstones that take the place of a live file are no
more than the live entries that take a name or the place of a tombstone. -/
def Replenishes (hemera : Hemera) (exchange : Exchange) (response : RegistryResponse)
    (registry : GSet) : Prop :=
  GSet.tally hemera GSet.buries registry (exchange.readings response) ≤
    GSet.tally hemera GSet.revives registry (exchange.readings response)

theorem merge_panic_iff : (merge hemera exchange response node).1 = .panic ↔
    Overruns hemera exchange response := by
  rw [Overruns, ← GSet.validatedMergeAt_panic_iff]
  exact Iff.rfl

theorem exists_merge (inRange : ¬ Overruns hemera exchange response) (node : SyncNode) :
    ∃ counts merged, merge hemera exchange response node = (.ok counts, merged) := by
  rcases run : merge hemera exchange response node with ⟨outcome, merged⟩
  cases outcome with
  | ok counts => exact ⟨counts, merged, rfl⟩
  | err error => exact absurd (congrArg Prod.fst run) GSet.validatedMergeAt_ne_err
  | panic => exact absurd (merge_panic_iff.mp (congrArg Prod.fst run)) inRange

theorem merge_len {counts : Nat × Nat}
    (merged : merge hemera exchange response node = (.ok counts, after)) :
    node.state.registry.len ≤ after.state.registry.len ↔
      Replenishes hemera exchange response node.state.registry := by
  rw [merge, onRegistry] at merged
  rcases run : GSet.validatedMergeAt hemera (exchange.readings response) (0, 0)
    node.state.registry with ⟨outcome, registry⟩
  rw [run] at merged
  cases merged
  have balance := GSet.validatedMergeAt_len run
  rw [Replenishes]
  dsimp only
  omega

/-- The count of the new files aborts when there are fewer files than before. -/
theorem counted_panic_iff {before now : Nat} {next : Nat → Action SyncNode String Unit} :
    ((Action.lift (Outcome.expect (checkedSub now before)) >>= next) node).1 = .panic ↔
      ¬ before ≤ now ∨ (next (now - before) node).1 = .panic := by
  by_cases grown : before ≤ now
  · rw [checkedSub_eq grown, Action.expect_some_bind]
    simp [grown]
  · rw [checkedSub_of_lt (Nat.not_le.mp grown), Action.expect_none_bind]
    simp [grown]

/-- What keeps `sync_with` from aborting once the response has arrived. -/
structure Harmless (hemera : Hemera) (json : Json) (exchange : Exchange)
    (response : RegistryResponse) (node : SyncNode) : Prop where
  root : exchange.computedRoot hemera response ≠ response.merkleRoot →
    sliced response.merkleRoot ≠ .panic
  clock : exchange.computedRoot hemera response = response.merkleRoot →
    ¬ Overruns hemera exchange response
  count : exchange.computedRoot hemera response = response.merkleRoot →
    ∀ counts merged saved, merge hemera exchange response node = (.ok counts, merged) →
      saveRegistry json merged = (.ok (), saved) →
      Replenishes hemera exchange response node.state.registry
  hashes : exchange.computedRoot hemera response = response.merkleRoot →
    ∀ counts merged saved, merge hemera exchange response node = (.ok counts, merged) →
      saveRegistry json merged = (.ok (), saved) →
      ∀ earlier wanted later between,
        exchange.wanted merged.state.registry = earlier ++ wanted :: later →
        Action.each (fetchChunk hemera true exchange.answers) earlier saved = (.ok (), between) →
        ¬ Garbled hemera exchange.answers wanted between

theorem first16_cases (text : String) :
    (sliced text = .panic ∧ first16 text = .panic) ∨
      sliced text ≠ .panic ∧ ∃ cut, first16 text = .ok cut := by
  rw [first16, sliced]
  split_ifs <;> simp

/-- A response that does not match is refused with a message that cites both roots. -/
theorem settleResponse_mismatched (printed : hemera.toHex = hexText) (peer : String)
    (mismatched : exchange.computedRoot hemera response ≠ response.merkleRoot) :
    (settleResponse hemera json peer exchange response node).1 = .panic ↔
      sliced response.merkleRoot = .panic := by
  rw [settleResponse, if_pos mismatched]
  rcases first16_cases response.merkleRoot with ⟨uncut, aborts⟩ | ⟨cut, claimed, returns⟩
  · rw [aborts]
    exact iff_of_true rfl uncut
  · rcases first16_cases (exchange.computedRoot hemera response) with ⟨uncut, -⟩ | ⟨-, computed, also⟩
    · rw [sliced_computedRoot printed exchange response] at uncut
      cases uncut
    · rw [returns, also]
      exact iff_of_false (by simp [Action.fail, Action.bind_ok (Action.lift_apply _ _)]) cut

/-- A response that matches is merged and saved before the new files are counted. -/
theorem settleResponse_matched (peer : String)
    (matched : exchange.computedRoot hemera response = response.merkleRoot) :
    (settleResponse hemera json peer exchange response node).1 = .panic ↔
      Overruns hemera exchange response ∨ ∃ counts merged saved,
        merge hemera exchange response node = (.ok counts, merged) ∧
        saveRegistry json merged = (.ok (), saved) ∧
        (¬ Replenishes hemera exchange response node.state.registry ∨
          ∃ earlier wanted later between,
            exchange.wanted merged.state.registry = earlier ++ wanted :: later ∧
            Action.each (fetchChunk hemera true exchange.answers) earlier saved =
              (.ok (), between) ∧ Garbled hemera exchange.answers wanted between) := by
  rw [settleResponse, if_neg (not_not.mpr matched), Action.get_bind, Action.bind_panic_iff,
    merge_panic_iff]
  refine or_congr_right (exists_congr fun counts => exists_congr fun merged => ?_)
  rw [exists_and_left]
  refine and_congr_right fun run => ?_
  rw [Action.get_bind, Action.bind_panic_iff]
  simp only [saveRegistry_ne_panic, false_or, counted_panic_iff, merge_len run,
    Action.each_panic_iff, fetchChunk_panic_iff, true_and]
  exact ⟨fun ⟨(), found⟩ => found, fun found => ⟨(), found⟩⟩

theorem settleResponse_returns_iff (printed : hemera.toHex = hexText) (peer : String) :
    (settleResponse hemera json peer exchange response node).1 ≠ .panic ↔
      Harmless hemera json exchange response node := by
  by_cases matched : exchange.computedRoot hemera response = response.merkleRoot
  · rw [Ne, settleResponse_matched peer matched]
    constructor
    · intro returns
      refine ⟨fun other => absurd matched other, fun _ late => returns (.inl late), ?_, ?_⟩
      · intro _ counts merged saved run saving
        by_contra short
        exact returns (.inr ⟨counts, merged, saved, run, saving, .inl short⟩)
      · intro _ counts merged saved run saving earlier wanted later between split came garbled
        exact returns (.inr ⟨counts, merged, saved, run, saving,
          .inr ⟨earlier, wanted, later, between, split, came, garbled⟩⟩)
    · rintro harmless (late | ⟨counts, merged, saved, run, saving, short | garbles⟩)
      · exact harmless.clock matched late
      · exact short (harmless.count matched counts merged saved run saving)
      · obtain ⟨earlier, wanted, later, between, split, came, garbled⟩ := garbles
        exact harmless.hashes matched counts merged saved run saving earlier wanted later between
          split came garbled
  · rw [Ne, settleResponse_mismatched printed peer matched]
    constructor
    · intro cut
      exact ⟨fun _ => cut, fun same => absurd same matched, fun same => absurd same matched,
        fun same => absurd same matched⟩
    · intro harmless
      exact harmless.root matched

/-- What keeps a round of `background_sync` from aborting: it cuts no text. -/
def Uneventful (hemera : Hemera) (exchange : Exchange) (node : SyncNode) : Prop :=
  ∀ response, exchange.response = .ok response →
    exchange.computedRoot hemera response = response.merkleRoot →
    ¬ Overruns hemera exchange response ∧
      Replenishes hemera exchange response (afterOthers exchange node).state.registry

/-- What follows the count neither subtracts nor cuts. -/
theorem background_tail_ne_panic (grows : Prop) [Decidable grows] (wanted : List (String × Nat))
    (node : SyncNode) : ((Action.when grows (saveRegistry json) >>= fun _ =>
      Action.each (fetchChunk hemera false answers) wanted) node).1 ≠ .panic := by
  rw [Ne, Action.bind_panic_iff, not_or]
  constructor
  · rw [Action.when]
    split_ifs
    · exact saveRegistry_ne_panic json node
    · simp
  · rintro ⟨_, between, -, aborted⟩
    obtain ⟨_, _, _, _, -, -, aborted⟩ := Action.each_panic_iff.mp aborted
    cases (fetchChunk_panic_iff.mp aborted).1

theorem backgroundRound_panic_iff :
    (backgroundRound hemera json exchange node).1 = .panic ↔ ¬ Uneventful hemera exchange node := by
  rw [backgroundRound, Uneventful]
  cases exchange.response with
  | error text => simp
  | ok response =>
      simp only [Except.ok.injEq, forall_eq', Action.modify_bind]
      by_cases matched : exchange.computedRoot hemera response = response.merkleRoot
      · rw [if_neg (not_not.mpr matched), Action.get_bind]
        by_cases late : Overruns hemera exchange response
        · refine iff_of_true (Action.bind_panic_iff.mpr (.inl (merge_panic_iff.mpr late))) ?_
          exact fun quiet => (quiet matched).1 late
        · obtain ⟨counts, merged, run⟩ := exists_merge late (afterOthers exchange node)
          rw [Action.bind_ok run, Action.get_bind, counted_panic_iff, merge_len run,
            or_iff_left (background_tail_ne_panic _ _ _)]
          simp [matched, late]
      · rw [if_pos matched]
        simp [matched]

theorem mergeFromDisk_ne_panic (json : Json) (disk : Walk) (node : SyncNode) :
    (mergeFromDisk json disk node).1 ≠ .panic := by
  rw [mergeFromDisk, Action.get_bind]
  split_ifs
  · simp only [Ne, Action.bind_panic_iff, Action.lift_apply, not_or, not_exists, not_and]
    refine ⟨?_, fun bytes _ _ => ⟨?_, fun _ _ _ aborted => by cases aborted⟩⟩
    · cases node.tree.read ("registry.json" :: node.state.dataDir) <;>
        simp [Except.mapError, Outcome.ofExcept]
    · rw [parseRegistry]
      split <;> simp
  · simp

theorem backgroundSync_returns_iff (disk : Walk) (exchanges : Nat → Exchange) :
    (backgroundSync hemera json disk exchanges node).1 ≠ .panic ↔
      ∀ start, mergeFromDisk json disk node = (.ok (), start) →
        ∀ earlier exchange later between,
          (List.range start.state.peers.length).map exchanges = earlier ++ exchange :: later →
          Action.each (backgroundRound hemera json) earlier start = (.ok (), between) →
          Uneventful hemera exchange between := by
  rw [backgroundSync, Ne, Action.bind_panic_iff]
  simp only [mergeFromDisk_ne_panic, false_or, Action.get_bind, Action.each_panic_iff,
    backgroundRound_panic_iff]
  push Not
  exact ⟨fun all => all (), fun all _ => all⟩

end Aborts

/-- `sync_with` aborts exactly when a wrong root cannot be cut at byte 16, a limit
overruns the clock, the accepted tombstones bury more live files than the accepted
entries bring, or a chunk with another hash comes for a hash that cannot be cut.
`background_sync`, which prints none of them, aborts exactly for the second or the
third in a round that it comes to. -/
theorem syncs_return_iff (hemera : Hemera) (printed : hemera.toHex = hexText) (json : Json)
    (node : SyncNode) :
    (∀ peer exchange, (syncWith hemera json peer exchange node).1 ≠ .panic ↔
      ∀ response, exchange.response = .ok response →
        Harmless hemera json exchange response (afterOthers exchange node)) ∧
    ∀ disk exchanges, (backgroundSync hemera json disk exchanges node).1 ≠ .panic ↔
      ∀ start, mergeFromDisk json disk node = (.ok (), start) →
        ∀ earlier exchange later between,
          (List.range start.state.peers.length).map exchanges = earlier ++ exchange :: later →
          Action.each (backgroundRound hemera json) earlier start = (.ok (), between) →
          Uneventful hemera exchange between := by
  refine ⟨?_, fun disk exchanges => backgroundSync_returns_iff disk exchanges⟩
  intro peer exchange
  rw [syncWith]
  cases answered : exchange.response with
  | error text =>
      have failed : ((Action.lift (Outcome.ofExcept (.error text)) >>= fun response =>
          Action.modify (afterOthers exchange) >>= fun _ =>
            settleResponse hemera json peer exchange response) node).1 = .err text := rfl
      simp [failed]
  | ok response =>
      have arrived : ((Action.lift (Outcome.ofExcept (.ok response)) >>= fun response =>
          Action.modify (afterOthers exchange) >>= fun _ =>
            settleResponse hemera json peer exchange response) node).1 =
          (settleResponse hemera json peer exchange response (afterOthers exchange node)).1 := rfl
      rw [arrived, settleResponse_returns_iff printed peer]
      simp

section Example

/-- An entry as a peer sends it. -/
def note (shardHashes : List String) (timestamp : UInt64) (deleted : Bool) : FileEntry where
  name := "notes"
  originalLen := 1
  k := 1
  n := 1
  shardHashes := shardHashes
  timestamp := timestamp
  entryHash := FileEntry.computeHash .truncating "notes" shardHashes timestamp "away"
  deviceId := "away"
  dasRoot := ""
  shardCopies := 1
  deleted := deleted

/-- A peer that sends one entry and answers every request for a chunk alike. -/
def offering (entry : FileEntry) (merkleRoot : String) (answer : Option (List UInt8)) :
    Exchange where
  response := .ok ⟨GSet.new.insert entry, merkleRoot⟩
  meanwhile := id
  received := .sorted
  merged := .sorted
  clock _ := 1000
  answers _ := answer

def rootOf (entry : FileEntry) : String := GSet.merkleRoot .truncating [entry]

def joined : SyncNode := { home with state.peers := ["away"] }

def bringing : Exchange := offering (note ["x"] 5 false) (rootOf (note ["x"] 5 false)) none

theorem bringing_adds (response : RegistryResponse) (answered : bringing.response = .ok response) :
    ¬ Overruns .truncating bringing response ∧
      Replenishes .truncating bringing response joined.state.registry := by
  cases answered
  rw [Overruns, Replenishes]
  decide +kernel

theorem syncs_return_iff_new_note :
    (syncWith .truncating emptyJson "away" bringing joined).1 ≠ .panic ∧
      (backgroundSync .truncating emptyJson .sorted (fun _ => bringing) joined).1 ≠ .panic := by
  have returns := syncs_return_iff .truncating rfl emptyJson joined
  constructor
  · refine (returns.1 "away" bringing).mpr fun response answered => ?_
    have adds := bringing_adds response answered
    have matched : bringing.computedRoot .truncating response = response.merkleRoot := by
      cases answered
      decide +kernel
    refine ⟨fun other => absurd matched other, fun _ => adds.1, fun _ _ _ _ _ _ => adds.2, ?_⟩
    rintro - _ _ _ - - _ _ _ _ - - ⟨-, ⟨bytes, came, -⟩, -⟩
    cases came
  · refine (returns.2 .sorted fun _ => bringing).mpr ?_
    intro start merged earlier exchange later between split came response answered _
    cases merged
    cases earlier with
    | nil =>
        cases split
        cases came
        exact bringing_adds response answered
    | cons first rest => simp [joined] at split

/-- A tombstone of a live file, a claimed root that is empty, a hash of one character. -/
theorem peer_makes_sync_abort :
    let gone := note ["x"] 6 true
    let holder := joined.register (note ["x"] 5 false)
    (syncWith .truncating emptyJson "away" (offering gone (rootOf gone) none) holder).1 = .panic ∧
      (backgroundSync .truncating emptyJson .sorted
        (fun _ => offering gone (rootOf gone) none) holder).1 = .panic ∧
      (syncWith .truncating emptyJson "away" (offering gone "" none) joined).1 = .panic ∧
      (syncWith .truncating emptyJson "away" (offering gone (rootOf gone) (some [])) joined).1 =
        .panic := by
  decide +kernel

end Example

end SyncNode

end Foculus.Sync

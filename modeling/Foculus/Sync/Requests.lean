import Foculus.Sync.Persistence

namespace Foculus.Sync

open Data Store

/-! # Requests to peers (`fetch_chunk_from_peer`, `fetch_registry_with_proof` and `ping_peer`
in `src/node.rs`)

A request is the bytes that are written to the stream, its answer is made from the
reply of `handle_connection`.  Lengths travel in 32 bits, so what is longer than that
arrives cut.
-/

/-- `serde_json` on registry responses as well. -/
structure WireJson extends Json where
  parseResponse : String → Option RegistryResponse

def WireJson.readResponse (json : WireJson) (bytes : List UInt8) : Option RegistryResponse :=
  (String.fromUTF8? ⟨bytes.toArray⟩).bind json.parseResponse

/-- A response and a registry are read back from their texts, and a text that is cut is
not read at all. -/
structure WireJson.Lawful (json : WireJson) : Prop extends json.toJson.Lawful where
  response_back : ∀ registry merkleRoot,
    json.readResponse (json.response registry merkleRoot) = some ⟨registry, merkleRoot⟩
  response_cut : ∀ registry merkleRoot, ∀ length < (json.response registry merkleRoot).length,
    json.readResponse ((json.response registry merkleRoot).take length) = none
  registry_cut : ∀ registry : GSet, ∀ length < (json.pretty registry).length,
    (String.fromUTF8? ⟨((json.pretty registry).take length).toArray⟩).bind json.parse = none

def pingRequest : List UInt8 := [msgPing]

def chunkRequest (hashHex : String) : List UInt8 := msgGetChunk :: writeBytes (strBytes hashHex)

def registryRequest : List UInt8 := [msgRegistry]

/-- Whether the peer is counted as alive. -/
def pingPeer : Reply → Bool
  | .sent (response :: _) => response == msgPong
  | _ => false

def fetchChunkFromPeer : Reply → Option (List UInt8)
  | .sent (response :: stream) => if response = msgChunkData then readBytes stream else none
  | _ => none

/-- `foreign` is the text of the errors that the stream and the parsers report. -/
def fetchRegistryWithProof (json : WireJson) (foreign : String) :
    Reply → Except String RegistryResponse
  | .sent (response :: stream) =>
      if response = msgRegistryResponse then
        match (readBytes stream).bind json.readResponse with
        | some response => .ok response
        | none => .error foreign
      else .error s!"unexpected response type {response}"
  | _ => .error foreign

section Wire

theorem readU32_append (value : Nat) (rest : List UInt8) :
    readU32 ((leBytes 4 (value % 2 ^ 32)).reverse ++ rest) = some (value % 2 ^ 32, rest) := by
  have decoded : ofLeBytes (leBytes 4 (value % 2 ^ 32)) = value % 2 ^ 32 :=
    ofLeBytes_leBytes (Nat.mod_lt _ (by decide))
  obtain ⟨b0, b1, b2, b3, split⟩ : ∃ b0 b1 b2 b3, leBytes 4 (value % 2 ^ 32) = [b0, b1, b2, b3] :=
    ⟨_, _, _, _, rfl⟩
  rw [split] at decoded ⊢
  simp [readU32, decoded]

/-- What is read back is the data up to its length in 32 bits. -/
theorem readBytes_writeBytes (data : List UInt8) :
    readBytes (writeBytes data) = some (data.take (data.length % 2 ^ 32)) := by
  rw [readBytes, writeBytes, readU32_append, Option.bind_some]
  exact if_pos (Nat.mod_le _ _)

theorem readBytes_short {data : List UInt8} (short : data.length < 2 ^ 32) :
    readBytes (writeBytes data) = some data := by
  rw [readBytes_writeBytes, Nat.mod_eq_of_lt short, List.take_length]

theorem take_mod_lt {data : List UInt8} (long : 2 ^ 32 ≤ data.length) :
    data.length % 2 ^ 32 < data.length :=
  (Nat.mod_lt _ (by decide)).trans_le long

theorem readString_writeBytes {text : String} (short : (strBytes text).length < 2 ^ 32) :
    readString (writeBytes (strBytes text)) = some text := by
  rw [readString, readBytes_short short, Option.bind_some, SyncNode.fromUTF8?_strBytes]

end Wire

namespace SyncNode

variable {hemera : Hemera} {json : WireJson} {node : SyncNode} {hashHex : String}

/-- The file that `handle_connection` opens for a chunk. -/
def chunkFile (node : SyncNode) (hashHex : String) : Option (List UInt8) :=
  (node.tree.resolve node.state.chunksDir hashHex).bind fun place => (node.tree.read place).toOption

theorem fetchChunk_handled (short : (strBytes hashHex).length < 2 ^ 32) :
    fetchChunkFromPeer (node.handleConnection hemera json.toJson (chunkRequest hashHex)) =
      (node.chunkFile hashHex).map fun data => data.take (data.length % 2 ^ 32) := by
  rw [chunkRequest, handleConnection_getChunk hemera _ node (readString_writeBytes short),
    serveChunk, chunkFile]
  cases node.tree.resolve node.state.chunksDir hashHex with
  | none => simp [fetchChunkFromPeer, msgChunkNotFound, msgChunkData]
  | some place =>
      rw [Option.bind_some]
      dsimp only
      cases node.tree.read place with
      | error fault => rfl
      | ok data => simp [fetchChunkFromPeer, readBytes_writeBytes, Except.toOption]

/-- The registry that is sent: the stored one, or the one in memory when none is stored. -/
def servedRegistry (json : Json) (node : SyncNode) : Option GSet :=
  if node.tree.has node.registryPath then loadRegistry json node else some node.state.registry

theorem handleConnection_registry (hemera : Hemera) (json : WireJson) (node : SyncNode) :
    node.handleConnection hemera json.toJson registryRequest =
      match node.servedRegistry json.toJson with
      | none => .dropped
      | some registry => .sent (msgRegistryResponse :: writeBytes
          (json.response registry (GSet.merkleRoot hemera registry.values))) := by
  have handled : node.handleConnection hemera json.toJson registryRequest =
      node.serveRegistry hemera json.toJson := by
    simp [handleConnection, registryRequest, msgRegistry, msgPing, msgGetChunk]
  rw [handled, serveRegistry, servedRegistry, loadRegistry]
  cases node.tree.has node.registryPath with
  | true =>
      cases node.tree.read node.registryPath with
      | error fault => rfl
      | ok bytes => rfl
  | false => rfl

/-- A response is the registry that the peer serves together with its root; the text
of a longer one is cut, and that is an error. -/
theorem fetchRegistry_handled (lawful : json.Lawful) {foreign : String}
    {response : RegistryResponse} :
    fetchRegistryWithProof json foreign
        (node.handleConnection hemera json.toJson registryRequest) = .ok response ↔
      ∃ registry, node.servedRegistry json.toJson = some registry ∧
        response = ⟨registry, GSet.merkleRoot hemera registry.values⟩ ∧
        (json.response registry (GSet.merkleRoot hemera registry.values)).length < 2 ^ 32 := by
  rw [handleConnection_registry]
  cases node.servedRegistry json.toJson with
  | none => simp [fetchRegistryWithProof]
  | some registry =>
      simp only [fetchRegistryWithProof, if_true, readBytes_writeBytes, Option.bind_some,
        Option.some.injEq, exists_eq_left']
      by_cases short : (json.response registry (GSet.merkleRoot hemera registry.values)).length <
          2 ^ 32
      · rw [Nat.mod_eq_of_lt short, List.take_length, lawful.response_back, Except.ok.injEq,
          and_iff_left short, eq_comm]
      · rw [lawful.response_cut _ _ _ (take_mod_lt (not_lt.mp short))]
        exact iff_of_false (fun same => by cases same) fun given => short given.2

/-- What a `sync_with` that returns has done: it merged the response, saved the registry
and asked for the chunks. -/
theorem settleResponse_steps (printed : hemera.toHex = hexText) {peer : String}
    {exchange : Exchange} {response : RegistryResponse} {after : SyncNode}
    (settled : settleResponse hemera json.toJson peer exchange response node = (.ok (), after)) :
    ∃ counts merged saved, merge hemera exchange response node = (.ok counts, merged) ∧
      saveRegistry json.toJson merged = (.ok (), saved) ∧
      Action.each (fetchChunk hemera true exchange.answers)
        (exchange.wanted after.state.registry) saved = (.ok (), after) ∧
      after.state = merged.state ∧
      loadRegistry json.toJson after = loadRegistry json.toJson saved := by
  rw [settleResponse] at settled
  split_ifs at settled with mismatched
  · obtain ⟨_, -, settled⟩ := Action.lift_bind_eq_ok_iff.mp settled
    obtain ⟨_, -, settled⟩ := Action.lift_bind_eq_ok_iff.mp settled
    cases settled
  · rw [Action.get_bind] at settled
    obtain ⟨counts, merged, merging, settled⟩ := Action.bind_eq_ok_iff.mp settled
    rw [Action.get_bind] at settled
    obtain ⟨⟨⟩, saved, saving, settled⟩ := Action.bind_eq_ok_iff.mp settled
    obtain ⟨_, -, fetching⟩ := Action.lift_bind_eq_ok_iff.mp settled
    obtain ⟨state, loads⟩ : after.state = saved.state ∧
        loadRegistry json.toJson after = loadRegistry json.toJson saved :=
      each_fetchChunk_ok printed fetching
    have same : after.state = merged.state := state.trans (saveRegistry_ok saving)
    exact ⟨counts, merged, saved, merging, saving, by rwa [same], same, loads⟩

theorem merge_run {exchange : Exchange} {response : RegistryResponse} {counts : Nat × Nat}
    {registry : GSet} (run : GSet.validatedMergeAt hemera (exchange.readings response) (0, 0)
      node.state.registry = (.ok counts, registry)) :
    merge hemera exchange response node = (.ok counts, { node with state.registry := registry }) := by
  simp only [merge, onRegistry, run]

/-- A `sync_with` whose response has its root, and that merges and saves, goes on to the
chunks. -/
theorem settleResponse_run {peer : String} {exchange : Exchange} {response : RegistryResponse}
    {counts : Nat × Nat} {merged saved : SyncNode}
    (matched : exchange.computedRoot hemera response = response.merkleRoot)
    (merging : merge hemera exchange response node = (.ok counts, merged))
    (saving : saveRegistry json.toJson merged = (.ok (), saved))
    (grown : node.state.registry.len ≤ merged.state.registry.len) :
    settleResponse hemera json.toJson peer exchange response node =
      Action.each (fetchChunk hemera true exchange.answers)
        (exchange.wanted merged.state.registry) saved := by
  have counted : checkedSub merged.state.registry.len node.state.registry.len =
      some (merged.state.registry.len - node.state.registry.len) := if_pos grown
  rw [settleResponse, if_neg (not_not.mpr matched), Action.get_bind, Action.bind_ok merging,
    Action.get_bind, Action.bind_ok saving, counted, Action.expect_some_bind]

theorem settleResponse_ok (printed : hemera.toHex = hexText) (lawful : json.Lawful)
    {peer : String} {exchange : Exchange} {response : RegistryResponse} {after : SyncNode}
    (settled : settleResponse hemera json.toJson peer exchange response node = (.ok (), after)) :
    loadRegistry json.toJson after = some after.state.registry ∧
      after.state.registry = (GSet.validatedMergeAt hemera (exchange.readings response) (0, 0)
        node.state.registry).2 := by
  obtain ⟨counts, merged, saved, merging, saving, -, state, loads⟩ :=
    settleResponse_steps printed settled
  rw [loads, state, loadRegistry_of_saved lawful.toLawful saving]
  exact ⟨rfl, by rw [(merge_ok merging).1]⟩

end SyncNode

/-! ## A stand-in that lets the model be run: lists of numbers in unary -/

section Example

def takeString : List Nat → Option (String × List Nat)
  | length :: rest =>
      if length ≤ rest.length then
        some (String.ofList ((rest.take length).map Char.ofNat), rest.drop length)
      else none
  | [] => none

def stringNumbers (text : String) : List Nat := text.length :: text.toList.map Char.toNat

def takeMany {α : Type} (take : List Nat → Option (α × List Nat)) :
    Nat → List Nat → Option (List α × List Nat)
  | 0, numbers => some ([], numbers)
  | count + 1, numbers =>
      (take numbers).bind fun (value, rest) =>
        (takeMany take count rest).map fun (values, rest) => (value :: values, rest)

/-- The numbers of an entry, then its texts behind the key of the map. -/
def entryNumbers (keyed : String × FileEntry) : List Nat :=
  let entry := keyed.2
  [entry.originalLen, entry.k, entry.n, entry.timestamp.toNat, entry.shardCopies,
    entry.deleted.toNat, entry.shardHashes.length + 5] ++
  (keyed.1 :: entry.name :: entry.entryHash :: entry.deviceId :: entry.dasRoot ::
    entry.shardHashes).flatMap stringNumbers

def takeEntry : List Nat → Option ((String × FileEntry) × List Nat)
  | originalLen :: k :: n :: timestamp :: shardCopies :: deleted :: count :: rest =>
      (takeMany takeString count rest).bind fun (texts, rest) =>
        match texts with
        | key :: name :: entryHash :: deviceId :: dasRoot :: shardHashes =>
            some ((key,
              { name, originalLen, k, n, shardHashes, timestamp := UInt64.ofNat timestamp
                entryHash, deviceId, dasRoot, shardCopies, deleted := deleted == 1 }), rest)
        | _ => none
  | _ => none

def registryNumbers (registry : GSet) : List Nat :=
  registry.files.toList.length :: registry.files.toList.flatMap entryNumbers

def takeRegistry : List Nat → Option (GSet × List Nat)
  | count :: rest =>
      (takeMany takeEntry count rest).map fun (entries, rest) =>
        ({ files := Std.ExtTreeMap.ofList entries }, rest)
  | [] => none

def strokes (numbers : List Nat) : List Char :=
  numbers.flatMap (fun number => List.replicate number '1' ++ [';']) ++ ['.']

def readStrokes : Nat → List Char → Option (List Nat)
  | count, '1' :: rest => readStrokes (count + 1) rest
  | count, ';' :: rest => (readStrokes 0 rest).map (count :: ·)
  | _, ['.'] => some []
  | _, _ => none

/-- Texts of numbers between strokes, closed by a full stop. -/
def unary : WireJson where
  pretty registry := strBytes (String.ofList (strokes (registryNumbers registry)))
  parse text := (readStrokes 0 text.toList).bind fun numbers => (takeRegistry numbers).map Prod.fst
  response registry merkleRoot :=
    strBytes (String.ofList (strokes (registryNumbers registry ++ stringNumbers merkleRoot)))
  parseResponse text := (readStrokes 0 text.toList).bind fun numbers =>
    (takeRegistry numbers).bind fun (registry, rest) =>
      (takeString rest).map fun (merkleRoot, _) => ⟨registry, merkleRoot⟩

theorem takeString_numbers (text : String) (rest : List Nat) :
    takeString (stringNumbers text ++ rest) = some (text, rest) := by
  have width : (text.toList.map Char.toNat).length = text.length := by
    rw [List.length_map, String.length_toList]
  have chars : (text.toList.map Char.toNat).map Char.ofNat = text.toList := by
    rw [List.map_map]
    exact List.map_id'' (fun char => Char.ofNat_toNat char) _
  rw [stringNumbers, List.cons_append, takeString,
    if_pos (by rw [List.length_append, width]; exact Nat.le_add_right _ _), ← width,
    List.take_left, List.drop_left, chars, String.ofList_toList]

theorem takeMany_numbers {α : Type} {take : List Nat → Option (α × List Nat)}
    {numbers : α → List Nat}
    (law : ∀ value rest, take (numbers value ++ rest) = some (value, rest)) (values : List α)
    (rest : List Nat) :
    takeMany take values.length (values.flatMap numbers ++ rest) = some (values, rest) := by
  induction values with
  | nil => rfl
  | cons value values ih =>
      simp only [List.length_cons, takeMany, List.flatMap_cons, List.append_assoc, law,
        Option.bind_some, ih, Option.map_some]

theorem takeEntry_numbers (keyed : String × FileEntry) (rest : List Nat) :
    takeEntry (entryNumbers keyed ++ rest) = some (keyed, rest) := by
  obtain ⟨key, entry⟩ := keyed
  have texts := takeMany_numbers takeString_numbers
    (key :: entry.name :: entry.entryHash :: entry.deviceId :: entry.dasRoot :: entry.shardHashes)
    rest
  simp only [List.length_cons] at texts
  rw [entryNumbers]
  simp only [List.cons_append, List.nil_append, takeEntry, texts, Option.bind_some]
  cases entry with
  | mk name originalLen k n shardHashes timestamp entryHash deviceId dasRoot shardCopies deleted =>
      cases deleted <;> simp

theorem takeRegistry_numbers (registry : GSet) (rest : List Nat) :
    takeRegistry (registryNumbers registry ++ rest) = some (registry, rest) := by
  simp only [registryNumbers, List.cons_append, takeRegistry, takeMany_numbers takeEntry_numbers,
    Option.map_some, SyncNode.ofList_toList]

theorem readStrokes_replicate (count number : Nat) (rest : List Char) :
    readStrokes count (List.replicate number '1' ++ ';' :: rest) =
      (readStrokes 0 rest).map ((count + number) :: ·) := by
  induction number generalizing count with
  | zero => rfl
  | succ number ih =>
      rw [List.replicate_succ, List.cons_append, readStrokes, ih, Nat.add_right_comm,
        Nat.add_assoc]

theorem readStrokes_strokes (numbers : List Nat) : readStrokes 0 (strokes numbers) = some numbers := by
  induction numbers with
  | nil => rfl
  | cons number rest ih =>
      have split : strokes (number :: rest) = List.replicate number '1' ++ ';' :: strokes rest := by
        simp [strokes]
      rw [split, readStrokes_replicate, ih, Nat.zero_add, Option.map_some]

theorem readStrokes_unclosed (count : Nat) {chars : List Char} (unclosed : '.' ∉ chars) :
    readStrokes count chars = none := by
  fun_induction readStrokes count chars with
  | case1 count rest ih => exact ih fun member => unclosed (.tail _ member)
  | case2 count rest ih => rw [ih fun member => unclosed (.tail _ member), Option.map_none]
  | case3 => exact absurd (.head _) unclosed
  | case4 => rfl

theorem strokes_ascii (numbers : List Nat) : ∀ char ∈ strokes numbers, char.toNat < 128 := by
  intro char member
  simp only [strokes, List.mem_append, List.mem_flatMap, List.mem_replicate,
    List.mem_singleton] at member
  rcases member with ⟨number, -, ⟨-, rfl⟩ | rfl⟩ | rfl
  all_goals decide

theorem strBytes_length {chars : List Char} (ascii : ∀ char ∈ chars, char.toNat < 128) :
    (strBytes (String.ofList chars)).length = chars.length := by
  rw [SyncNode.strBytes_ascii (by rwa [String.toList_ofList]), List.length_map,
    String.toList_ofList]

/-- A text that is cut has lost its full stop. -/
theorem strokes_cut (numbers : List Nat) {length : Nat}
    (cut : length < (strBytes (String.ofList (strokes numbers))).length) :
    ∃ text, String.fromUTF8?
        ⟨((strBytes (String.ofList (strokes numbers))).take length).toArray⟩ = some text ∧
      readStrokes 0 text.toList = none := by
  rw [strBytes_length (strokes_ascii numbers)] at cut
  have shorter : ∀ char ∈ (strokes numbers).take length, char.toNat < 128 :=
    fun char member => strokes_ascii numbers char (List.mem_of_mem_take member)
  refine ⟨String.ofList ((strokes numbers).take length), ?_, ?_⟩
  · rw [SyncNode.strBytes_ascii (by rw [String.toList_ofList]; exact strokes_ascii numbers),
      String.toList_ofList, ← List.map_take]
    rw [← SyncNode.fromUTF8?_strBytes (String.ofList ((strokes numbers).take length)),
      SyncNode.strBytes_ascii (by rwa [String.toList_ofList]), String.toList_ofList]
  · rw [String.toList_ofList]
    apply readStrokes_unclosed
    rw [strokes, List.length_append, List.length_singleton] at cut
    rw [strokes, List.take_append_of_le_length (by omega)]
    intro member
    have body := List.mem_of_mem_take member
    simp only [List.mem_flatMap, List.mem_append, List.mem_replicate, List.mem_singleton] at body
    obtain ⟨number, -, ⟨-, same⟩ | same⟩ := body
    all_goals exact absurd same (by decide)

theorem unary_lawful : unary.Lawful where
  reads_back registry := by
    have read := takeRegistry_numbers registry []
    rw [List.append_nil] at read
    simp only [unary, SyncNode.fromUTF8?_strBytes, Option.bind_some, String.toList_ofList,
      readStrokes_strokes, read, Option.map_some]
  response_back registry merkleRoot := by
    have read := takeString_numbers merkleRoot []
    rw [List.append_nil] at read
    simp only [WireJson.readResponse, unary, SyncNode.fromUTF8?_strBytes, Option.bind_some,
      String.toList_ofList, readStrokes_strokes, takeRegistry_numbers, read, Option.map_some]
  response_cut registry merkleRoot length cut := by
    obtain ⟨text, decoded, unread⟩ := strokes_cut _ cut
    simp only [WireJson.readResponse, unary] at decoded ⊢
    rw [decoded, Option.bind_some, unread, Option.bind_none]
  registry_cut registry length cut := by
    obtain ⟨text, decoded, unread⟩ := strokes_cut _ cut
    simp only [unary] at decoded ⊢
    rw [decoded, Option.bind_some, unread, Option.bind_none]

end Example

end Foculus.Sync

import Foculus.Data.Proportional
import Foculus.Sync.Files

namespace Foculus.Sync

open Data Erasure Store

/-! # Which shards `put_file` leaves on the node

A chunk is written when its shard is placed on device 0 or when the node has no
peers; nothing sends the other chunks anywhere.  The placement gives this node
its share of the shards by capacity, so how many chunks there are afterwards
does not depend on `k`.
-/

section Placement

variable {nShards index : Nat} {peerCapacities : List UInt64}

/-- What the shards are shared out by.  This node counts as large as a device can be. -/
def deviceCaps (peerCapacities : List UInt64) : List Nat :=
  ((2 ^ 64 - 1) :: peerCapacities.map UInt64.toNat).map (max · 1)

/-- How many shards are placed on this node: its rounded share and, since it is the
first in the order, one of those that the rounding leaves over. -/
def ownAllotment (nShards : Nat) (peerCapacities : List UInt64) : Nat :=
  let caps := deviceCaps peerCapacities
  let shares := floorParts nShards caps.sum caps
  shares.headD 0 + if shares.sum < nShards then 1 else 0

theorem deviceCaps_length (peerCapacities : List UInt64) :
    (deviceCaps peerCapacities).length = peerCapacities.length + 1 := by
  rw [deviceCaps, List.length_map, List.length_cons, List.length_map]

theorem deviceCaps_positive (peerCapacities : List UInt64) : 0 < (deviceCaps peerCapacities).sum := by
  rw [deviceCaps, List.map_cons, List.sum_cons]
  omega

/-- The devices in the order in which they are given what is left over. -/
def deviceOrder (peerCapacities : List UInt64) : List Nat :=
  let caps := (2 ^ 64 - 1) :: peerCapacities.map UInt64.toNat
  (List.range (peerCapacities.length + 1)).insertionSort fun a b => caps.getD b 0 ≤ caps.getD a 0

theorem deviceOrder_perm (peerCapacities : List UInt64) :
    (deviceOrder peerCapacities).Perm (List.range (peerCapacities.length + 1)) :=
  List.perm_insertionSort _ _

theorem deviceOrder_nodup (peerCapacities : List UInt64) : (deviceOrder peerCapacities).Nodup :=
  (deviceOrder_perm peerCapacities).nodup_iff.mpr List.nodup_range

theorem deviceOrder_length (peerCapacities : List UInt64) :
    (deviceOrder peerCapacities).length = peerCapacities.length + 1 :=
  (deviceOrder_perm peerCapacities).length_eq.trans List.length_range

theorem lt_of_mem_deviceOrder {device : Nat} (member : device ∈ deviceOrder peerCapacities) :
    device < peerCapacities.length + 1 :=
  List.mem_range.mp ((deviceOrder_perm peerCapacities).mem_iff.mp member)

/-- This node comes first, whatever the peers report. -/
theorem deviceOrder_eq (peerCapacities : List UInt64) :
    ∃ others, deviceOrder peerCapacities = 0 :: others := by
  rw [deviceOrder, List.range_succ_eq_map, List.insertionSort_cons_of_forall_rel]
  · exact ⟨_, rfl⟩
  · intro device member
    obtain ⟨peer, inside, rfl⟩ := List.mem_map.mp member
    rw [List.getD_cons_succ, List.getD_cons_zero, List.getD_eq_getElem?_getD, List.getElem?_map]
    cases peerCapacities[peer]? with
    | none => exact Nat.zero_le _
    | some capacity => exact Nat.le_sub_one_of_lt capacity.toNat_lt

theorem foldl_modify_sum {devices counts : List Nat} (inside : ∀ d ∈ devices, d < counts.length) :
    (devices.foldl (fun counts d => counts.modify d (· + 1)) counts).sum =
      counts.sum + devices.length := by
  induction devices generalizing counts with
  | nil => rfl
  | cons device rest ih =>
      rw [List.foldl_cons, ih, sum_modify_add (inside device (by simp)), List.length_cons]
      · omega
      · intro other member
        rw [List.length_modify]
        exact inside other (by simp [member])

/-- A device is given one more as often as it is listed. -/
theorem foldl_modify_getElem? (devices counts : List Nat) (device : Nat) :
    (devices.foldl (fun counts d => counts.modify d (· + 1)) counts)[device]? =
      counts[device]?.map (· + devices.count device) := by
  induction devices generalizing counts with
  | nil => simp
  | cons d rest ih =>
      rw [List.foldl_cons, ih, List.getElem?_modify, List.count_cons]
      cases counts[device]? with
      | none => rfl
      | some count =>
          by_cases here : d = device
          · simp [here]
            omega
          · simp [here]

/-- This node gets one of the shards that are left over, if there are any. -/
theorem count_own_take (peerCapacities : List UInt64) (spare : Nat) :
    ((deviceOrder peerCapacities).take spare).count 0 = if 0 < spare then 1 else 0 := by
  obtain ⟨others, order⟩ := deviceOrder_eq peerCapacities
  have once := deviceOrder_nodup peerCapacities
  rw [order, List.nodup_cons] at once
  rw [order]
  cases spare with
  | zero => rfl
  | succ spare =>
      have later : 0 ∉ others.take spare := fun peer => once.1 (List.mem_of_mem_take peer)
      rw [List.take_succ_cons, List.count_cons_self, List.count_eq_zero.mpr later,
        if_pos (Nat.succ_pos _)]

/-- The devices, each as often as it is given a shard. -/
def spread (counts : List Nat) : List Nat :=
  counts.zipIdx.flatMap fun (count, device) => List.replicate count device

theorem spread_length (counts : List Nat) : (spread counts).length = counts.sum := by
  simp [spread, List.length_flatMap]

theorem spread_getD_eq_zero_iff {counts : List Nat} (inside : index < counts.sum) :
    (spread counts).getD index 0 = 0 ↔ index < counts.headD 0 := by
  cases counts with
  | nil => exact absurd inside (Nat.not_lt_zero _)
  | cons own others =>
      have given : (spread (own :: others))[index]? = some ((spread (own :: others)).getD index 0) := by
        rw [← spread_length] at inside
        rw [List.getD_eq_getElem?_getD, List.getElem?_eq_getElem inside, Option.getD_some]
      rw [spread, List.zipIdx_cons, List.flatMap_cons] at given ⊢
      rw [List.headD_cons]
      by_cases here : index < own
      · simp [List.getD_eq_getElem?_getD, List.getElem?_append_left, here]
      · refine iff_of_false ?_ here
        rw [List.getElem?_append_right (by simpa using here)] at given
        obtain ⟨⟨count, device⟩, member, copies⟩ :=
          List.mem_flatMap.mp (List.mem_of_getElem? given)
        -- The other devices are numbered from one.
        have numbered := List.le_snd_of_mem_zipIdx member
        rw [List.eq_of_mem_replicate copies]
        omega

/-- What each device is given: its rounded share, and one more to the first in the order. -/
def deviceCounts (nShards : Nat) (peerCapacities : List UInt64) : List Nat :=
  let caps := deviceCaps peerCapacities
  let shares := floorParts nShards caps.sum caps
  ((deviceOrder peerCapacities).take (nShards - shares.sum)).foldl
    (fun counts device => counts.modify device (· + 1)) shares

theorem capacityWeightedPlacement_eq (positive : nShards ≠ 0) (peerCapacities : List UInt64) :
    capacityWeightedPlacement nShards peerCapacities =
      (spread (deviceCounts nShards peerCapacities)).take nShards := by
  have shares : floorParts nShards (deviceCaps peerCapacities).sum (deviceCaps peerCapacities) =
      ((2 ^ 64 - 1) :: peerCapacities.map UInt64.toNat).map fun cap =>
        nShards * max cap 1 / (deviceCaps peerCapacities).sum := by
    rw [floorParts, deviceCaps, List.map_map]
    refine List.map_congr_left fun cap _ => ?_
    rw [Function.comp_apply, floorPart, Nat.mul_comm]
  rw [capacityWeightedPlacement, if_neg positive, deviceCounts, shares]
  rfl

theorem deviceCounts_spec (nShards : Nat) (peerCapacities : List UInt64) :
    (deviceCounts nShards peerCapacities).sum = nShards ∧
      (deviceCounts nShards peerCapacities).headD 0 = ownAllotment nShards peerCapacities := by
  have positive := deviceCaps_positive peerCapacities
  have within := floorParts_sum_le nShards positive (Nat.le_refl _)
  have missing := lt_floorParts_sum nShards positive
  have counted := (deviceCaps peerCapacities).countP_le_length (p := (0 < ·))
  have devices := deviceCaps_length peerCapacities
  have length := floorParts_length nShards (deviceCaps peerCapacities).sum (deviceCaps peerCapacities)
  simp only [deviceCounts, ownAllotment]
  generalize floorParts nShards (deviceCaps peerCapacities).sum (deviceCaps peerCapacities) = shares
    at within missing length
  constructor
  · rw [foldl_modify_sum, List.length_take, deviceOrder_length]
    · omega
    · intro device member
      rw [length, devices]
      exact lt_of_mem_deviceOrder (List.mem_of_mem_take member)
  · cases shares with
    | nil => rw [devices] at length; cases length
    | cons own rest =>
        rw [List.headD_eq_getD, List.getD_eq_getElem?_getD, foldl_modify_getElem?, count_own_take]
        by_cases left : (own :: rest).sum < nShards
        · rw [if_pos left, if_pos (Nat.sub_pos_of_lt left)]
          rfl
        · rw [if_neg left, if_neg (by omega)]
          rfl

/-- A shard is placed on this node when it is among the first of them. -/
theorem placed_here_iff (inside : index < nShards) :
    (capacityWeightedPlacement nShards peerCapacities).getD index 0 = 0 ↔
      index < ownAllotment nShards peerCapacities := by
  obtain ⟨total, own⟩ := deviceCounts_spec nShards peerCapacities
  have whole : (spread (deviceCounts nShards peerCapacities)).length = nShards := by
    rw [spread_length, total]
  rw [capacityWeightedPlacement_eq (Nat.ne_zero_of_lt inside), List.take_of_length_le whole.le,
    spread_getD_eq_zero_iff (total.symm ▸ inside), own]

end Placement

section Chunks

variable {hemera : Hemera} {nebu : Nebu} {merkle : HemeraTree} {json : Json} {now : UInt64}
  {name hash : String} {data : List UInt8} {node after : SyncNode}

theorem hexText_plain (digest : Particle) : FileTree.Plain (hexText digest) := by
  have digits : ∀ digit < 16, Nat.digitChar digit ≠ '/' ∧ Nat.digitChar digit ≠ Char.ofNat 0 := by
    decide
  have chars : ∀ char ∈ (hexText digest).toList, char ≠ '/' ∧ char ≠ Char.ofNat 0 := by
    intro char member
    obtain ⟨digit, bound, rfl⟩ := mem_hexText member
    exact digits digit bound
  have long := hexText_length digest
  refine ⟨fun slash => (chars _ slash).1 rfl, fun nul => (chars _ nul).2 rfl, ?_, ?_, ?_⟩
  · intro same
    rw [same] at long
    cases long
  · intro same
    rw [same] at long
    cases long
  · intro same
    rw [same] at long
    cases long

namespace SyncNode

/-- The chunk lies in the chunks directory and has its hash. -/
def holdsChunk (hemera : Hemera) (node : SyncNode) (hash : String) : Bool :=
  match node.tree.node (hash :: node.state.chunksDir) with
  | some (.file bytes) => verifyChunk hemera bytes hash
  | _ => false

theorem writeChunk_holdsChunk (printed : hemera.toHex = hexText) {shard : Shard}
    (written : writeChunk (chunkName hemera shard) (shardToBytes shard) node = (.ok (), after)) :
    after.state = node.state ∧
      (after.holdsChunk hemera hash = true ↔
        node.holdsChunk hemera hash = true ∨ chunkName hemera shard = hash) := by
  rw [writeChunk, Action.get_bind] at written
  obtain ⟨wrote, same⟩ := onTree_ok written
  have plain : FileTree.Plain (chunkName hemera shard) := by
    rw [chunkName, printed]
    exact hexText_plain _
  refine ⟨same, ?_⟩
  rw [holdsChunk, same, plain.writePath_ok wrote, Function.update_apply]
  split_ifs with here
  · obtain ⟨named, -⟩ := List.cons.inj here
    subst named
    simp [verifyChunk, chunkName, digest]
  · have other : chunkName hemera shard ≠ hash := fun named => here (by rw [named])
    simp [holdsChunk, other]

theorem storeShards_holdsChunk (printed : hemera.toHex = hexText) {placement : List Nat}
    {alone : Bool} {shards : List Shard} {hashes : List String}
    (stored : storeShards hemera placement alone shards node = (.ok hashes, after)) :
    after.holdsChunk hemera hash = true ↔ node.holdsChunk hemera hash = true ∨
      ∃ shard ∈ shards, (placement.getD shard.index 0 = 0 ∨ alone = true) ∧
        chunkName hemera shard = hash := by
  induction shards generalizing node hashes with
  | nil =>
      cases stored
      simp
  | cons shard rest ih =>
      obtain ⟨_, between, kept, continuing⟩ := Action.bind_eq_ok_iff.mp stored
      obtain ⟨later, _, storing, returned⟩ := Action.bind_eq_ok_iff.mp continuing
      cases returned
      rw [ih storing]
      rw [Action.when] at kept
      split_ifs at kept with here
      · rw [(writeChunk_holdsChunk printed kept).2]
        simp only [List.exists_mem_cons_iff, here, true_and, or_assoc]
      · cases kept
        simp only [List.exists_mem_cons_iff, here, false_and, false_or]

/-- The registry is not saved among the chunks. -/
theorem saveRegistry_holdsChunk (saved : saveRegistry json node = (.ok (), after)) :
    after.holdsChunk hemera hash = node.holdsChunk hemera hash := by
  rw [saveRegistry, Action.get_bind] at saved
  obtain ⟨wrote, same⟩ := onTree_ok saved
  have elsewhere : hash :: node.state.chunksDir ≠ "registry.json" :: node.state.dataDir := by
    intro here
    have lengths := congrArg List.length here
    simp [SharedState.chunksDir] at lengths
  rw [holdsChunk, holdsChunk, same, FileTree.write_ok wrote, Function.update_of_ne elsewhere]

/-- The shards that `put_file` writes on this node. -/
def keptShards (nebu : Nebu) (state : SharedState) (data : List UInt8) : List Shard :=
  (shardsOf nebu state data).filter fun shard =>
    state.peers.isEmpty || decide (shard.index < ownAllotment state.n state.peerCapacities)

/-- After `put_file` the node holds what it held before and the chunks of the
shards that it writes, nothing else. -/
theorem putFile_holdsChunk (printed : hemera.toHex = hexText)
    (put : putFile hemera nebu merkle json now name data node = (.ok (), after)) :
    after.holdsChunk hemera hash = true ↔ node.holdsChunk hemera hash = true ∨
      hash ∈ (keptShards nebu node.state data).map (chunkName hemera) := by
  obtain ⟨coded, hashes, between, stored, saved⟩ := putFile_steps put
  have indices := encode_indices coded
  have registered : ∀ entry, (between.register entry).holdsChunk hemera hash =
      between.holdsChunk hemera hash := fun _ => rfl
  rw [saveRegistry_holdsChunk saved, registered, storeShards_holdsChunk printed stored]
  refine or_congr_right ?_
  simp only [keptShards, List.mem_map, List.mem_filter, and_assoc]
  refine exists_congr fun shard => and_congr_right fun member => and_congr_left fun _ => ?_
  have inside : shard.index < node.state.n := by
    rw [← List.mem_range, ← indices]
    exact List.mem_map_of_mem member
  rw [placed_here_iff inside]
  simp [or_comm]

theorem countP_range_lt (n bound : Nat) : (List.range n).countP (· < bound) = min n bound := by
  induction n with
  | zero => simp
  | succ n ih =>
      rw [List.range_succ, List.countP_append, ih, List.countP_singleton]
      split_ifs with inside
      · have below := of_decide_eq_true inside
        omega
      · have above : ¬ n < bound := fun below => inside (decide_eq_true below)
        omega

theorem keptShards_length (coded : (encode nebu data node.state.k node.state.n).isSome) :
    (keptShards nebu node.state data).length =
      if node.state.peers = [] then node.state.n
      else min node.state.n (ownAllotment node.state.n node.state.peerCapacities) := by
  obtain ⟨shards, encoded⟩ := Option.isSome_iff_exists.mp coded
  have indices := encode_indices encoded
  have length : shards.length = node.state.n := by
    rw [← List.length_map Shard.index, indices, List.length_range]
  rw [keptShards, shardsOf, encoded, Option.getD_some]
  split_ifs with alone
  · simp [alone, length]
  · have peered : node.state.peers.isEmpty = false := by simpa using alone
    simp only [peered, Bool.false_or]
    rw [← countP_range_lt, ← indices, List.countP_map, List.countP_eq_length_filter]
    rfl

/-- Of different chunks that are all new, those on the node are those it writes. -/
theorem keptShards_count {held : String → Bool}
    (distinct : ((shardsOf nebu node.state data).map (chunkName hemera)).Nodup)
    (stored : ∀ hash ∈ (shardsOf nebu node.state data).map (chunkName hemera),
      held hash = true ↔ hash ∈ (keptShards nebu node.state data).map (chunkName hemera)) :
    ((shardsOf nebu node.state data).map (chunkName hemera)).countP held =
      (keptShards nebu node.state data).length := by
  rw [List.countP_map, keptShards, ← List.countP_eq_length_filter]
  refine List.countP_congr fun shard member => ?_
  rw [Function.comp_apply, stored _ (List.mem_map_of_mem member), keptShards, List.mem_map]
  constructor
  · rintro ⟨other, kept, same⟩
    obtain ⟨otherMember, kept⟩ := List.mem_filter.mp kept
    rwa [List.inj_on_of_nodup_map distinct otherMember member same] at kept
  · intro kept
    exact ⟨shard, List.mem_filter.mpr ⟨member, kept⟩, rfl⟩

/-- Enough chunks on the node are enough to decode the data. -/
theorem exists_decoding (lawful : nebu.Lawful) (bound : node.state.n ≤ 2 ^ 32)
    (coded : encode nebu data node.state.k node.state.n = some (shardsOf nebu node.state data))
    {held : String → Bool}
    (enough : node.state.k ≤ ((shardsOf nebu node.state data).map (chunkName hemera)).countP held) :
    ∃ found : List Shard, (∀ shard ∈ found, shard ∈ shardsOf nebu node.state data ∧
        held (chunkName hemera shard) = true) ∧
      decode nebu found node.state.k node.state.n data.length = .ok data := by
  have codeword := encode_codeword lawful bound coded
  have distinct : ((shardsOf nebu node.state data).map Shard.index).Nodup := by
    rw [codeword.indices]
    exact List.nodup_range
  refine ⟨(shardsOf nebu node.state data).filter (held ∘ chunkName hemera),
    fun shard member => List.mem_filter.mp member, codeword.decodes _ ?_ ?_ ?_⟩
  · exact fun shard member => List.mem_of_mem_filter member
  · exact distinct.sublist (List.filter_sublist.map _)
  · rwa [← List.countP_eq_length_filter, ← List.countP_map]

/-- At least `k` of the chunks that the new entry names are on the node exactly when
that many were there already or belong to shards placed here.  If the chunks
differ and none was there, this is so when the node has no peers or at least `k`
shards are placed on it.  Where the chunks are enough, the data can be decoded. -/
theorem putFile_keeps_enough_iff (hemera : Hemera) (printed : hemera.toHex = hexText) (nebu : Nebu)
    (merkle : HemeraTree) (json : Json) (now : UInt64) (name : String) (data : List UInt8)
    (node after : SyncNode)
    (put : putFile hemera nebu merkle json now name data node = (.ok (), after)) :
    let entry := putEntry hemera nebu merkle node.state now name data
    let enough := entry.k ≤ entry.shardHashes.countP (after.holdsChunk hemera)
    after.state.registry = node.state.registry.insert entry ∧
      (enough ↔ entry.k ≤ entry.shardHashes.countP fun hash => node.holdsChunk hemera hash ||
        ((keptShards nebu node.state data).map (chunkName hemera)).contains hash) ∧
      (entry.shardHashes.Nodup →
        (∀ hash ∈ entry.shardHashes, node.holdsChunk hemera hash = false) →
        (enough ↔ node.state.peers = [] ∨
          entry.k ≤ ownAllotment node.state.n node.state.peerCapacities)) ∧
      (nebu.Lawful → node.state.n ≤ 2 ^ 32 → enough →
        ∃ found : List Shard, (∀ shard ∈ found, shard ∈ shardsOf nebu node.state data ∧
            after.holdsChunk hemera (chunkName hemera shard) = true) ∧
          decode nebu found entry.k entry.n entry.originalLen = .ok data) := by
  intro entry enough
  obtain ⟨coded, registered⟩ := putFile_ok put
  refine ⟨registered, ?_, ?_, ?_⟩
  · have same : after.holdsChunk hemera = fun hash => node.holdsChunk hemera hash ||
        ((keptShards nebu node.state data).map (chunkName hemera)).contains hash := by
      funext hash
      rw [Bool.eq_iff_iff, putFile_holdsChunk printed put]
      simp
    rw [← same]
  · intro distinct absent
    have stored : ∀ hash ∈ entry.shardHashes, after.holdsChunk hemera hash = true ↔
        hash ∈ (keptShards nebu node.state data).map (chunkName hemera) := by
      intro hash member
      rw [putFile_holdsChunk printed put, absent hash member]
      simp
    have counted : entry.shardHashes.countP (after.holdsChunk hemera) =
        (keptShards nebu node.state data).length := keptShards_count distinct stored
    have threshold := (encode_params coded).2.2
    have params : entry.k = node.state.k := rfl
    simp only [enough]
    rw [counted, keptShards_length (by rw [coded]; rfl), params]
    split_ifs with alone
    · exact iff_of_true threshold (.inl alone)
    · simp [alone, threshold]
  · intro lawful bound held
    exact exists_decoding lawful bound coded held

end SyncNode

end Chunks

section Example

theorem rootOfUnity_two : Goldilocks.rootOfUnity 2 = -1 := by
  have order : orderOf (Goldilocks.rootOfUnity 2) = 2 :=
    Goldilocks.rootOfUnity_order ⟨1, by decide, rfl⟩
  have square := pow_orderOf_eq_one (Goldilocks.rootOfUnity 2)
  rw [order, pow_two] at square
  rcases mul_self_eq_one_iff.mp square with one | minus
  · rw [one, orderOf_one] at order
    cases order
  · exact minus

/-- The polynomial `1 + x` at the two roots of unity. -/
theorem naiveNebu_ntt_pair : naiveNebu.ntt [1, 1] = [2, 0] := by
  simp only [naiveNebu, List.length_cons, List.length_nil, Nat.reduceAdd, rootOfUnity_two,
    List.range_succ, List.range_zero, List.nil_append, List.map_append, List.map_cons, List.map_nil,
    List.foldr_cons, List.foldr_nil]
  decide +kernel

/-- Eight bytes are two field elements, here `1` and `1`. -/
def twoElements : List UInt8 := [1, 0, 0, 0, 0, 0, 0, 1]

theorem encode_twoElements : encode naiveNebu twoElements 2 2 = some [⟨0, [2]⟩, ⟨1, [0]⟩] := by
  have elements : bytesToElements twoElements = [1, 1] := by decide +kernel
  have poly : groupPoly [1, 1] 2 2 0 = [1, 1] := by decide +kernel
  rw [encode, if_neg (by decide), if_neg (by decide)]
  simp [elements, resize, pushGroup, poly, naiveNebu_ntt_pair, List.range_succ]

namespace SyncNode

/-- A node with one peer that reports the largest capacity. -/
def paired : SyncNode where
  state :=
    { registry := .new, dataDir := [], k := 2, n := 2, peers := ["away"]
      peerCapacities := [2 ^ 64 - 1], deviceId := "paired" }
  tree := chunksTree

/-- The peer has room for one byte. -/
def spacious : SyncNode :=
  { paired with state := { paired.state with peerCapacities := [1] } }

/-- Both shards are placed on the node itself. -/
theorem putFile_keeps_enough_iff_small_peer :
    ∃ after, putFile .truncating naiveNebu .truncating emptyJson 5 "notes" twoElements spacious =
        (.ok (), after) ∧
      2 ≤ (putEntry .truncating naiveNebu .truncating spacious.state 5 "notes"
        twoElements).shardHashes.countP (after.holdsChunk .truncating) := by
  have coded : encode naiveNebu twoElements spacious.state.k spacious.state.n =
      some [⟨0, [2]⟩, ⟨1, [0]⟩] := encode_twoElements
  have put : (putFile .truncating naiveNebu .truncating emptyJson 5 "notes" twoElements spacious).1 =
      .ok () := by
    rw [putFile, Action.get_bind, coded]
    decide +kernel
  have fresh : (putEntry .truncating naiveNebu .truncating spacious.state 5 "notes"
        twoElements).shardHashes.Nodup ∧
      ∀ hash ∈ (putEntry .truncating naiveNebu .truncating spacious.state 5 "notes"
        twoElements).shardHashes, spacious.holdsChunk .truncating hash = false := by
    rw [putEntry, shardsOf, coded]
    decide +kernel
  have kept := putFile_keeps_enough_iff .truncating rfl naiveNebu .truncating emptyJson 5 "notes"
    twoElements spacious _ (Action.eq_of_fst_ok put)
  have own : 2 ≤ ownAllotment 2 [1] := by decide +kernel
  exact ⟨_, Action.eq_of_fst_ok put, (kept.2.2.1 fresh.1 fresh.2).mpr (.inr own)⟩

/-- Half of the shards are placed on the peer and are nowhere afterwards. -/
theorem put_leaves_too_few_chunks :
    ∃ after, putFile .truncating naiveNebu .truncating emptyJson 5 "notes" twoElements paired =
        (.ok (), after) ∧
      (putEntry .truncating naiveNebu .truncating paired.state 5 "notes" twoElements).k = 2 ∧
      (putEntry .truncating naiveNebu .truncating paired.state 5 "notes"
        twoElements).shardHashes.countP (after.holdsChunk .truncating) = 1 := by
  have coded : encode naiveNebu twoElements paired.state.k paired.state.n =
      some [⟨0, [2]⟩, ⟨1, [0]⟩] := encode_twoElements
  have put : (putFile .truncating naiveNebu .truncating emptyJson 5 "notes" twoElements paired).1 =
      .ok () := by
    rw [putFile, Action.get_bind, coded]
    decide +kernel
  refine ⟨_, Action.eq_of_fst_ok put, rfl, ?_⟩
  rw [putEntry, shardsOf, putFile, Action.get_bind, coded]
  decide +kernel

end SyncNode

end Example

end Foculus.Sync

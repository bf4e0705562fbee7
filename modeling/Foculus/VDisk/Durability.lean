import Foculus.VDisk.Frame

namespace Foculus.VDisk.World

open Data Erasure Store

/-! # What becomes of the files over a whole run

Once `put_file` has accepted a file all of its shards are stored, and no later
call loses one: `rechunk` and `rebalance` only ever add chunks, and an entry is
replaced only by one whose shards are all stored too. -/

variable {hemera : Hemera} {nebu : Nebu} {merkle : HemeraTree}

/-- What a call that returned adds to the contents a file was given. -/
def takes (fileName : String) : Call → Outcome String Unit → List (List UInt8)
  | .putFile _ _ name data, .ok () => if name = fileName then [data] else []
  | _, _ => []

/-- The contents of the file that `put_file` has accepted in the run, the last one last. -/
def accepted (nebu : Nebu) (merkle : HemeraTree) (fileName : String) (world : World hemera) :
    List Call → List (List UInt8)
  | [] => []
  | first :: rest => takes fileName first (call nebu merkle first world).1 ++
      accepted nebu merkle fileName (call nebu merkle first world).2 rest

theorem takes_putFile {now : UInt64} {diskName name : String} {data : List UInt8}
    {outcome : Outcome String Unit} (stored : outcome = .ok ()) :
    takes name (.putFile now diskName name data) outcome = [data] := by
  subst stored
  exact if_pos rfl

theorem call_putFile {now : UInt64} {diskName name : String} {data : List UInt8}
    {world : World hemera} : (call nebu merkle (.putFile now diskName name data) world).1 =
      (putFile nebu merkle now diskName name data world).1.void := rfl

/-- The chunks the data may be encoded to. -/
def encodings (nebu : Nebu) (data : List UInt8) : Set (List UInt8) :=
  {bytes | ∃ k n shards, encode nebu data k n = some shards ∧
    ∃ shard ∈ shards, bytes = shardToBytes shard}

/-- Whichever devices are lost, as many as `k` of the list are left. -/
def Outlasts (deviceNames : List String) (k failures : Nat) : Prop :=
  ∀ lost : List String, lost.length ≤ failures → k ≤ (deviceNames.filter (· ∉ lost)).length

/-- The entry of the file names the shards of its data, and each of them is in the
index of its device. -/
structure Filed (world : World hemera) (nebu : Nebu) (chunks : Set (List UInt8))
    (failures : Nat) (name : String) (data : List UInt8) (deviceNames : List String)
    (entry : FileEntry) (shards : List Shard) : Prop where
  registered : world.manager.registry.get name = some entry
  codes : Codes nebu hemera entry data shards
  known : ∀ shard ∈ shards, shardToBytes shard ∈ chunks
  indexed : ∀ shard ∈ shards, world.Indexed (deviceOf deviceNames shard) (chunkName hemera shard)
  covers : deviceNames.length ≤ entry.n
  outlasts : Outlasts deviceNames entry.k failures

/-- The file has been given none of the contents and is not registered, or it is
filed with one of them. -/
def Files (world : World hemera) (nebu : Nebu) (chunks : Set (List UInt8)) (failures : Nat)
    (name : String) (contents : List (List UInt8)) : Prop :=
  world.manager.registry.getRaw name = none ∧ contents = [] ∨
    ∃ data ∈ contents, ∃ deviceNames entry shards,
      world.Filed nebu chunks failures name data deviceNames entry shards

/-- What holds between any two calls, `history` being the contents each file was given. -/
structure Durable (world : World hemera) (nebu : Nebu) (chunks : Set (List UInt8))
    (failures : Nat) (history : String → List (List UInt8)) : Prop where
  equipped : world.Equipped
  addressed : world.Addressed chunks
  vacant : ∀ hash place written,
    world.tree.obstacle (hemera.toHex hash :: place) ≠ some (.full written)
  tolerant : ∀ (name : String) (config : DiskConfig), world.manager.disks[name]? = some config →
    ∀ devices, failures ≤ config.redundancy.failures devices
  encoded : ∀ name, ∀ data ∈ history name, encodings nebu data ⊆ chunks
  files : ∀ name, world.Files nebu chunks failures name (history name)

variable {world between after : World hemera} {chunks : Set (List UInt8)} {failures : Nat}
  {history : String → List (List UInt8)} {name : String} {data : List UInt8}
  {deviceNames : List String} {entry : FileEntry} {shards : List Shard}

theorem outlasts_of_nodup {k : Nat} (enough : k + failures ≤ deviceNames.length)
    (distinct : 0 < failures → deviceNames.Nodup) : Outlasts deviceNames k failures := by
  intro lost few
  rcases Nat.eq_zero_or_pos failures with rfl | positive
  · have none_lost : lost = [] := List.eq_nil_of_length_eq_zero (Nat.le_zero.mp few)
    simpa [none_lost] using enough
  · have survivors := length_le_filter_add (distinct positive) lost
    omega

theorem mem_encodings {k n : Nat} (coded : encode nebu data k n = some shards)
    (contained : encodings nebu data ⊆ chunks) : ∀ shard ∈ shards, shardToBytes shard ∈ chunks :=
  fun shard member => contained ⟨k, n, shards, coded, shard, member, rfl⟩

section Filed

theorem Filed.mono (filed : world.Filed nebu chunks failures name data deviceNames entry shards)
    (registered : after.manager.registry.get name = world.manager.registry.get name)
    (indexed : ∀ deviceName hex, world.Indexed deviceName hex → after.Indexed deviceName hex) :
    after.Filed nebu chunks failures name data deviceNames entry shards :=
  { filed with
    registered := registered.trans filed.registered
    indexed shard member := indexed _ _ (filed.indexed shard member) }

theorem Files.mono {contents : List (List UInt8)}
    (files : world.Files nebu chunks failures name contents)
    (registry : after.manager.registry.getRaw name = world.manager.registry.getRaw name)
    (indexed : ∀ deviceName hex, world.Indexed deviceName hex → after.Indexed deviceName hex) :
    after.Files nebu chunks failures name contents := by
  rcases files with ⟨absent, empty⟩ | ⟨data, given, deviceNames, entry, shards, filed⟩
  · exact .inl ⟨registry.trans absent, empty⟩
  · have registered := congrArg (Option.filter (!·.deleted)) registry
    exact .inr ⟨data, given, deviceNames, entry, shards, filed.mono registered indexed⟩

theorem Filed.stored (filed : world.Filed nebu chunks failures name data deviceNames entry shards)
    (lawful : nebu.Lawful) (printed : hemera.toHex = hexText) (free : hemera.CollisionFree chunks)
    (sound : world.Sound chunks) :
    world.Stored nebu deviceNames name data entry.k entry.n shards where
  codeword := filed.codes.codeword lawful
  registered := ⟨entry, filed.registered, rfl, rfl, filed.codes.length, filed.codes.hashes⟩
  genuine := sound.genuine printed free filed.known
  indexed := filed.indexed

/-- A filed file outlasts the loss of any devices, as many as are tolerated. -/
theorem Filed.getFile (filed : world.Filed nebu chunks failures name data deviceNames entry shards)
    (lawful : nebu.Lawful) (printed : hemera.toHex = hexText) (free : hemera.CollisionFree chunks)
    (sound : world.Sound chunks) {lost : List String} (few : lost.length ≤ failures)
    (stores : Walk) : (world.lose lost).getFile nebu stores name = .ok data := by
  have held := filed.stored lawful printed free sound
  exact held.getFile printed
    ((filed.outlasts lost few).trans (held.length_available lost filed.covers stores))

theorem Grows.indexed (grows : world.Grows after) (deviceName hex : String)
    (held : world.Indexed deviceName hex) : after.Indexed deviceName hex := by
  obtain ⟨store, opened, member⟩ := held
  obtain ⟨kept, found, -, index⟩ := grows.opened opened
  exact ⟨kept, found, index hex member⟩

end Filed

namespace Durable

variable (durable : world.Durable nebu chunks failures history)
include durable

theorem roomy : world.Roomy :=
  fun _ store hash written _ => durable.vacant hash store.root written

/-- The earlier contents of a file that is filed may be forgotten. -/
theorem filed (filed : world.Filed nebu chunks failures name data deviceNames entry shards)
    (contained : encodings nebu data ⊆ chunks) : world.Durable nebu chunks failures
      fun other => if other = name then [data] else history other :=
  { durable with
    encoded := fun other content given => by
      split_ifs at given
      · exact List.mem_singleton.mp given ▸ contained
      · exact durable.encoded other content given
    files := fun other => by
      split_ifs with same
      · exact same ▸ .inr ⟨data, List.mem_singleton_self data, deviceNames, entry, shards, filed⟩
      · exact durable.files other }

/-- What `get_file` returns was given to the file. -/
theorem given (lawful : nebu.Lawful) (printed : hemera.toHex = hexText)
    (free : hemera.CollisionFree chunks) {stores : Walk}
    (read : world.getFile nebu stores name = .ok data) : data ∈ history name := by
  rcases durable.files name with ⟨absent, -⟩ | ⟨other, given, deviceNames, entry, shards, filed⟩
  · have missing : world.manager.registry.get name = none := by
      change (world.manager.registry.getRaw name).filter _ = none
      rw [absent]
      rfl
    simp [World.getFile, missing] at read
  · have few : ([] : List String).length ≤ failures := Nat.zero_le _
    have same := filed.getFile lawful printed free durable.addressed.sound few stores
    cases read.symm.trans same
    exact given

theorem puts {dealt : List Shard} (puts : Puts dealt world after)
    (known : ∀ shard ∈ dealt, shardToBytes shard ∈ chunks) :
    after.Durable nebu chunks failures history where
  equipped attachment member := by
    rw [puts.grows.attachments] at member
    exact puts.grows.mem_stores (durable.equipped attachment member)
  addressed := puts.addressed durable.roomy known durable.addressed
  vacant := puts.grows.obstacle ▸ durable.vacant
  tolerant := puts.grows.disks ▸ durable.tolerant
  encoded := durable.encoded
  files name := (durable.files name).mono (by rw [puts.registry]) puts.grows.indexed

/-- An entry that names stored shards may be registered. -/
theorem register {added : List (List UInt8)} (live : entry.deleted = false)
    (codes : Codes nebu hemera entry data shards) (contained : encodings nebu data ⊆ chunks)
    (indexed : ∀ shard ∈ shards, world.Indexed (deviceOf deviceNames shard) (chunkName hemera shard))
    (covers : deviceNames.length ≤ entry.n) (outlasts : Outlasts deviceNames entry.k failures)
    (member : data ∈ history entry.name ++ added) (only : ∀ other ∈ added, other = data) :
    (world.register entry).Durable nebu chunks failures fun name =>
      history name ++ if entry.name = name then added else [] where
  equipped := durable.equipped
  addressed := ⟨durable.addressed.files, durable.addressed.index⟩
  vacant := durable.vacant
  tolerant := durable.tolerant
  encoded name other given := by
    rcases List.mem_append.mp given with before | new
    · exact durable.encoded name other before
    · split_ifs at new
      · exact only other new ▸ contained
      · cases new
  files name := by
    by_cases here : entry.name = name
    · subst here
      rw [if_pos rfl]
      have filed (registered : (world.register entry).manager.registry.get entry.name = some entry) :
          (world.register entry).Filed nebu chunks failures entry.name data deviceNames entry shards :=
        ⟨registered, codes, mem_encodings codes.coded contained, indexed, covers, outlasts⟩
      rcases durable.files entry.name with ⟨absent, -⟩ | ⟨other, given, devices, old, dealt, before⟩
      · exact .inr ⟨data, member, deviceNames, entry, shards,
          filed (GSet.get_insert_of_absent absent live)⟩
      · rcases world.manager.registry.getRaw_insert_cases entry entry.name with same | ⟨-, held⟩
        · exact .inr ⟨other, List.mem_append_left _ given, devices, old, dealt,
            before.mono (congrArg (Option.filter fun found : FileEntry => !found.deleted) same)
              fun _ _ => id⟩
        · refine .inr ⟨data, member, deviceNames, entry, shards, filed ?_⟩
          change ((world.manager.registry.insert entry).getRaw entry.name).filter _ = _
          rw [held]
          simp [live]
    · rw [if_neg here, List.append_nil]
      refine (durable.files name).mono ?_ fun _ _ => id
      rcases world.manager.registry.getRaw_insert_cases entry name with same | ⟨named, -⟩
      · exact same
      · exact absurd named.symm here

end Durable

section Rebalance

theorem putShard_returned (deviceName : String) (shard : Shard) (world : World hemera) :
    Puts [shard] world (putShard deviceName shard world).2 := by
  have puts := putShard_puts world deviceName (List.mem_singleton_self shard) world
    (.refl [shard] world)
  rcases called : putShard deviceName shard world with ⟨outcome, after⟩
  rw [called] at puts
  cases outcome with
  | ok hash => exact puts
  | err reason => exact puts
  | panic => exact puts.elim

theorem attempt_kept {invariant : World hemera → Prop} {deviceName : String} {shard : Shard}
    (kept : invariant (putShard deviceName shard world).2) :
    invariant ((Action.attempt (putShard deviceName shard) >>= fun stored =>
      pure (if stored.isSome then 1 else 0) : Action (World hemera) String Nat) world).2 := by
  rcases called : putShard deviceName shard world with ⟨outcome, after⟩
  rw [called] at kept
  cases outcome with
  | ok hash => simpa only [bind, Action.bind, Action.attempt, called, Action.pure_apply] using kept
  | err reason => simpa only [bind, Action.bind, Action.attempt, called, Action.pure_apply] using kept
  | panic => simpa only [bind, Action.bind, Action.attempt, called, Action.pure_apply] using kept

/-- What putting a chunk of the hash keeps, its migration keeps. -/
theorem migrateShard_keeps {invariant : World hemera → Prop} {hash : Particle} {index : Nat}
    (put : ∀ world bytes destination, invariant world → world.Returns (hemera.toHex hash) bytes →
      invariant (putShard destination (bytesToShard index bytes) world).2)
    (source : String) (destinations : List String) :
    (migrateShard source hash index destinations).Keeps invariant := by
  induction destinations with
  | nil => exact Action.keeps_pure _
  | cons destination rest ih =>
      intro world holds
      rw [migrateShard, Action.get_bind]
      cases world.manager.stores[destination]? with
      | none => exact ih world holds
      | some kept =>
          dsimp only
          split_ifs
          · exact ih world holds
          · cases found : world.manager.stores[source]?.bind fun store =>
                (store.get world.tree hash).toOption with
            | none => exact ih world holds
            | some bytes =>
                exact attempt_kept (put world bytes destination holds (returns_of_get found))

theorem migrateShards_keeps {invariant : World hemera → Prop} {hashes : List (String × Nat)}
    (put : ∀ hex ∈ hashes.map Prod.fst, ∀ hash, hexToHash hex = .ok hash →
      ∀ index world bytes destination, invariant world → world.Returns (hemera.toHex hash) bytes →
        invariant (putShard destination (bytesToShard index bytes) world).2)
    (overloaded underloaded : List String) :
    (migrateShards overloaded underloaded hashes).Keeps invariant := by
  induction hashes with
  | nil => exact Action.keeps_pure _
  | cons first rest ih =>
      have later := ih fun hex member => put hex (List.mem_cons_of_mem _ member)
      refine Action.keeps_bind Action.keeps_get fun world => ?_
      split
      · exact later
      · rename_i hash parsed
        split
        · exact later
        · refine Action.keeps_bind ?_ fun here => ?_
          · exact migrateShard_keeps (put first.1 List.mem_cons_self hash parsed first.2) _ _
          · exact Action.keeps_bind later fun later => Action.keeps_pure _

/-- What putting a chunk that an entry names keeps, `rebalance` keeps. -/
theorem rebalance_keeps {invariant : World hemera → Prop}
    (put : ∀ before, invariant before → ∀ name entry,
      before.manager.registry.get name = some entry → ∀ hex ∈ entry.shardHashes, ∀ hash,
        hexToHash hex = .ok hash → ∀ index world bytes destination, invariant world →
          world.Returns (hemera.toHex hash) bytes →
            invariant (putShard destination (bytesToShard index bytes) world).2)
    (share : UInt64 → UInt64 → UInt64 → UInt64) (files : Walk) (diskName : String) :
    (rebalance share files diskName).Keeps invariant := by
  have migrated (overloaded underloaded fileNames : List String) :
      (migrateFiles overloaded underloaded fileNames).Keeps invariant := by
    induction fileNames with
    | nil => exact Action.keeps_pure _
    | cons fileName rest ih =>
        intro world holds
        rw [migrateFiles, Action.get_bind]
        cases registered : world.manager.registry.get fileName with
        | none => exact ih world holds
        | some entry =>
            refine Action.keeps_bind ?_ (fun here => ?_) world holds
            · refine migrateShards_keeps (fun hex member => ?_) _ _
              rw [List.zipIdx_map_fst] at member
              exact put world holds fileName entry registered hex member
            · exact Action.keeps_bind ih fun later => Action.keeps_pure _
  refine Action.keeps_bind Action.keeps_get fun world => ?_
  refine Action.keeps_ite (Action.keeps_pure _) ?_
  exact Action.keeps_bind (Action.keeps_lift _) fun targets => migrated _ _ _

theorem rebalance_grows (share : UInt64 → UInt64 → UInt64 → UInt64) (files : Walk)
    (diskName : String) (world : World hemera) :
    world.Grows (rebalance share files diskName world).2 :=
  rebalance_keeps (fun _ _ _ _ _ _ _ _ _ index between bytes destination grows _ =>
    grows.trans (putShard_grows between destination (bytesToShard index bytes)))
    share files diskName world (.refl world)

/-- A chunk that an entry names is copied as it is. -/
theorem Durable.rebalance (printed : hemera.toHex = hexText) (free : hemera.CollisionFree chunks)
    (share : UInt64 → UInt64 → UInt64 → UInt64) (files : Walk) (diskName : String) :
    (World.rebalance share files diskName : Action (World hemera) _ _).Keeps
      fun world => world.Durable nebu chunks failures history := by
  refine rebalance_keeps (fun before durable name entry registered hex named hash parsed index world
    bytes destination later held => ?_) share files diskName
  rcases durable.files name with ⟨absent, -⟩ | ⟨data, given, devices, kept, shards, filed⟩
  · change (before.manager.registry.getRaw name).filter _ = _ at registered
    rw [absent] at registered
    cases registered
  · cases filed.registered.symm.trans registered
    rw [filed.codes.hashes] at named
    obtain ⟨shard, member, rfl⟩ := List.mem_map.mp named
    rw [chunkName, printed, hexToHash_hexText] at parsed
    cases parsed
    have same : bytes = shardToBytes shard :=
      later.addressed.sound.genuine printed free filed.known shard member bytes held
    have copied : shardToBytes (bytesToShard index bytes) = shardToBytes shard := by
      rw [same, bytesToShard, shardToBytes, shardToBytes, wordElements_flatMap]
    refine later.puts (putShard_returned destination (bytesToShard index bytes) world) ?_
    intro other dealt
    cases List.mem_singleton.mp dealt
    rw [copied]
    exact filed.known shard member

end Rebalance

section Calls

theorem attach_frame (deviceName diskName : String) (capacity : UInt64) (world : World hemera) :
    (attach deviceName diskName capacity world).2.manager.disks = world.manager.disks ∧
      world.manager.attachments <+:
        (attach deviceName diskName capacity world).2.manager.attachments ∧
      ∀ (name : String) (store : ChunkStore hemera), world.manager.stores[name]? = some store →
        (attach deviceName diskName capacity world).2.manager.stores[name]? = some store := by
  simp only [attach]
  split_ifs with disk present
  · exact ⟨rfl, List.prefix_append _ _, fun _ _ => id⟩
  · split
    · refine ⟨rfl, List.prefix_append _ _, fun name store opened => ?_⟩
      rw [Std.ExtTreeMap.getElem?_insert, if_neg, opened]
      intro same
      rw [Std.LawfulEqCmp.eq_of_compare same, Std.ExtTreeMap.contains_eq_isSome_getElem?,
        opened] at present
      exact present rfl
    · exact ⟨rfl, List.prefix_append _ _, fun _ _ => id⟩
    · exact ⟨rfl, List.prefix_append _ _, fun _ _ => id⟩
  · exact ⟨rfl, List.prefix_refl _, fun _ _ => id⟩

namespace Durable

theorem createDisk (durable : world.Durable nebu chunks failures history) {config : DiskConfig}
    (tolerant : ∀ devices, failures ≤ config.redundancy.failures devices) :
    (World.createDisk config world).2.Durable nebu chunks failures history := by
  rw [World.createDisk, Action.get_bind]
  dsimp only
  split_ifs
  · exact durable
  · exact
      { equipped := durable.equipped
        addressed := ⟨durable.addressed.files, durable.addressed.index⟩
        vacant := durable.vacant
        tolerant := by
          intro name other found
          rw [Action.modify, Std.ExtTreeMap.getElem?_insert] at found
          split_ifs at found
          · cases found
            exact tolerant
          · exact durable.tolerant name other found
        encoded := durable.encoded
        files := fun name => (durable.files name).mono rfl fun _ _ => id }

theorem attach (durable : world.Durable nebu chunks failures history) {deviceName diskName : String}
    {capacity : UInt64} (opens : world.Opens (.attach deviceName diskName capacity)) :
    (World.attach deviceName diskName capacity world).2.Durable nebu chunks failures history := by
  obtain ⟨disks, -, kept⟩ := attach_frame deviceName diskName capacity world
  exact
    { equipped := attach_equipped opens durable.equipped
      addressed := attach_addressed deviceName diskName capacity world durable.addressed
      vacant := (attach_adds deviceName diskName capacity world).1.obstacle ▸ durable.vacant
      tolerant := disks ▸ durable.tolerant
      encoded := durable.encoded
      files := fun name => by
        refine (durable.files name).mono (by rw [attach_registry]) fun device hex held => ?_
        obtain ⟨store, opened, member⟩ := held
        exact ⟨store, kept device store opened, member⟩ }

theorem attached (durable : world.Durable nebu chunks failures history) {diskName : String} :
    ∀ name ∈ world.manager.deviceNames diskName, name ∈ world.manager.stores := by
  intro name member
  obtain ⟨attachment, kept, rfl⟩ := List.mem_map.mp member
  exact durable.equipped attachment (List.mem_filter.mp kept).1

/-- A call that returned has given the file its data, and one that failed has not. -/
theorem putFile (durable : world.Durable nebu chunks failures history) {diskName : String}
    (bound : (world.manager.deviceNames diskName).length ≤ 2 ^ 32)
    (distinct : 0 < failures → (world.manager.deviceNames diskName).Nodup) (now : UInt64)
    (fileName : String) (contained : encodings nebu data ⊆ chunks) :
    (World.putFile nebu merkle now diskName fileName data world).2.Durable nebu chunks failures
      fun name => history name ++ takes name (.putFile now diskName fileName data)
        (World.putFile nebu merkle now diskName fileName data world).1.void := by
  have failed {after : World hemera} (later : after.Durable nebu chunks failures history)
      (outcome : Outcome String Unit) (failed : outcome ≠ .ok ()) :
      after.Durable nebu chunks failures fun name =>
        history name ++ takes name (.putFile now diskName fileName data) outcome := by
    cases outcome with
    | ok _ => exact absurd rfl failed
    | err reason => simpa only [takes, List.append_nil] using later
    | panic => simpa only [takes, List.append_nil] using later
  rcases putFile_cases nebu merkle now diskName fileName data world with
    ⟨-, reason, run⟩ | ⟨config, disk, ⟨-, reason, run⟩ | ⟨nonempty, ⟨-, run⟩ | ⟨k, counted,
      ⟨-, run⟩ | ⟨coded, ⟨hashes, between, dealt, run⟩ | ⟨reason, between, dealt, run⟩⟩⟩⟩⟩
  · rw [run]
    exact failed durable _ (by simp [Outcome.void])
  · rw [run]
    exact failed durable _ (by simp [Outcome.void])
  · rw [run]
    exact failed durable _ (by simp [Outcome.void])
  · rw [run]
    exact failed durable _ (by simp [Outcome.void])
  · have distributed := distribute_ok nonempty durable.attached dealt
    have known := mem_encodings coded contained
    rw [run]
    refine (durable.puts (distribute_returned dealt) known).register rfl
      ⟨coded, nextPowerOfTwo_le bound, rfl, distributed.hashes_eq⟩ contained distributed.indexed
      (le_nextPowerOfTwo _) (outlasts_of_nodup ?_ distinct) ?_ ?_
    · have tolerated := durable.tolerant diskName config disk
        (world.manager.deviceNames diskName).length
      change k + failures ≤ _
      omega
    · exact List.mem_append_right _ (List.mem_singleton_self data)
    · exact fun other member => List.mem_singleton.mp member
  · rw [run]
    have known := mem_encodings coded contained
    exact failed (durable.puts (distribute_returned dealt) known) _ (by simp [Outcome.void])

/-- A round of `rechunk` files what it reads anew. -/
theorem rechunkFile {k n : Nat} (lawful : nebu.Lawful) (printed : hemera.toHex = hexText)
    (free : hemera.CollisionFree chunks) (nonempty : deviceNames ≠ []) (bound : n ≤ 2 ^ 32)
    (covers : deviceNames.length ≤ n) (outlasts : 0 < k → Outlasts deviceNames k failures)
    (stores : Walk) (now : UInt64) (config : DiskConfig) (fileName : String) :
    (World.rechunkFile nebu merkle stores now config deviceNames k n fileName).Keeps
      fun between : World hemera => between.Durable nebu chunks failures history ∧
        ∀ name ∈ deviceNames, name ∈ between.manager.stores := by
  refine Action.keeps_iff_triple.mpr fun between kept => ?_
  obtain ⟨durable, equipped⟩ := kept
  refine (rechunkFile_spec between).consequence (fun _ => id) ?_ ?_ ?_ between rfl
  · rintro _ after (⟨-, -, rfl⟩ | ⟨-, data, shards, hashes, last, read, coded, dealt, rfl⟩)
    · exact ⟨durable, equipped⟩
    · have given := durable.given lawful printed free read
      have contained := durable.encoded fileName data given
      have distributed := distribute_ok nonempty equipped dealt
      have puts := distribute_returned dealt
      refine ⟨?_, fun name member => puts.grows.mem_stores (equipped name member)⟩
      have filed : (last.register (World.rewritten merkle hemera now config k n fileName data shards
          hashes between.manager.registry)).Durable nebu chunks failures fun name =>
            history name ++ if fileName = name then [] else [] :=
        (durable.puts puts (mem_encodings coded contained)).register rfl
          ⟨coded, bound, rfl, distributed.hashes_eq⟩ contained distributed.indexed covers
          (outlasts (encode_params coded).2.1) (List.mem_append_left _ given) (by simp)
      simpa only [ite_self, List.append_nil] using filed
  · rintro after ⟨data, shards, read, coded, puts⟩
    have contained := durable.encoded fileName data (durable.given lawful printed free read)
    exact ⟨durable.puts puts (mem_encodings coded contained),
      fun name member => puts.grows.mem_stores (equipped name member)⟩
  · rintro after ⟨rfl, -⟩
    exact ⟨durable, equipped⟩

theorem rechunk (lawful : nebu.Lawful) (printed : hemera.toHex = hexText)
    (free : hemera.CollisionFree chunks) (durable : world.Durable nebu chunks failures history)
    {diskName : String} (bound : (world.manager.deviceNames diskName).length ≤ 2 ^ 32)
    (distinct : 0 < failures → (world.manager.deviceNames diskName).Nodup)
    (stores files : Walk) (clock : String → UInt64) :
    (World.rechunk nebu merkle stores files clock diskName world).2.Durable nebu chunks failures
      history := by
  refine rechunk_keeps (fun after => after.Durable nebu chunks failures history) durable
    fun config disk two => ?_
  have nonempty : world.manager.deviceNames diskName ≠ [] := List.length_pos_iff.mp (by omega)
  have tolerated := durable.tolerant diskName config disk
    (world.manager.deviceNames diskName).length
  exact (rounds_keeps (fun fileName _ => rechunkFile lawful printed free nonempty
    (nextPowerOfTwo_le bound) (le_nextPowerOfTwo _)
    (fun positive => outlasts_of_nodup (by omega) distinct) stores (clock fileName) config fileName)
    world ⟨durable, durable.attached⟩).1

end Durable

theorem call_attachments_eq {first : Call} (world : World hemera)
    (others : ∀ deviceName diskName capacity, first ≠ .attach deviceName diskName capacity) :
    (call nebu merkle first world).2.manager.attachments = world.manager.attachments := by
  cases first with
  | createDisk config =>
      rw [call, createDisk, Action.get_bind]
      dsimp only
      split_ifs <;> rfl
  | attach deviceName diskName capacity => exact absurd rfl (others deviceName diskName capacity)
  | putFile now diskName fileName data =>
      exact (putFile_grows nebu merkle now diskName fileName data world).attachments
  | rechunk stores files clock diskName =>
      exact (rechunk_grows nebu merkle stores files clock diskName world).attachments
  | rebalance share files diskName => exact (rebalance_grows share files diskName world).attachments

/-- A call attaches devices, and detaches none. -/
theorem call_attachments (first : Call) (world : World hemera) :
    world.manager.attachments <+: (call nebu merkle first world).2.manager.attachments := by
  by_cases attaches : ∃ deviceName diskName capacity, first = .attach deviceName diskName capacity
  · obtain ⟨deviceName, diskName, capacity, rfl⟩ := attaches
    exact (attach_frame deviceName diskName capacity world).2.1
  · rw [call_attachments_eq world fun deviceName diskName capacity same =>
      attaches ⟨deviceName, diskName, capacity, same⟩]

theorem run_attachments (calls : List Call) (world : World hemera) :
    world.manager.attachments <+: (world.run nebu merkle calls).manager.attachments := by
  induction calls generalizing world with
  | nil => exact List.prefix_refl _
  | cons first rest ih => exact (call_attachments first world).trans (ih _)

theorem run_append (nebu : Nebu) (merkle : HemeraTree) (before later : List Call)
    (world : World hemera) :
    world.run nebu merkle (before ++ later) = (world.run nebu merkle before).run nebu merkle later := by
  induction before generalizing world with
  | nil => rfl
  | cons first rest ih => exact ih _

theorem accepted_append (nebu : Nebu) (merkle : HemeraTree) (name : String) (before later : List Call)
    (world : World hemera) : accepted nebu merkle name world (before ++ later) =
      accepted nebu merkle name world before ++
        accepted nebu merkle name (world.run nebu merkle before) later := by
  induction before generalizing world with
  | nil => rfl
  | cons first rest ih =>
      rw [List.cons_append, accepted, accepted, ih, List.append_assoc]
      rfl

theorem allOpen_append {before later : List Call} :
    world.AllOpen nebu merkle (before ++ later) ↔ world.AllOpen nebu merkle before ∧
      (world.run nebu merkle before).AllOpen nebu merkle later := by
  induction before generalizing world with
  | nil => exact (and_iff_right trivial).symm
  | cons first rest ih => exact (and_congr_right fun _ => ih).trans and_assoc.symm

end Calls

section Run

/-- What a run may be asked to do while every file outlasts the loss of `failures` devices. -/
structure Bearable (nebu : Nebu) (chunks : Set (List UInt8)) (failures : Nat) (calls : List Call)
    (last : World hemera) : Prop where
  tolerant : ∀ config, .createDisk config ∈ calls →
    ∀ devices, failures ≤ config.redundancy.failures devices
  encoded : ∀ now diskName fileName data, .putFile now diskName fileName data ∈ calls →
    encodings nebu data ⊆ chunks
  bound : ∀ diskName, (last.manager.deviceNames diskName).length ≤ 2 ^ 32
  distinct : 0 < failures → ∀ diskName, (last.manager.deviceNames diskName).Nodup

variable {last : World hemera} {calls : List Call}

theorem Bearable.subset {others : List Call} (bearable : Bearable nebu chunks failures calls last)
    (subset : others ⊆ calls) : Bearable nebu chunks failures others last where
  tolerant config member := bearable.tolerant config (subset member)
  encoded now diskName fileName data member :=
    bearable.encoded now diskName fileName data (subset member)
  bound := bearable.bound
  distinct := bearable.distinct

theorem deviceNames_sublist (attachments : world.manager.attachments <+: last.manager.attachments)
    (diskName : String) :
    (world.manager.deviceNames diskName).Sublist (last.manager.deviceNames diskName) :=
  (attachments.sublist.filter _).map _

theorem call_durable (merkle : HemeraTree) (lawful : nebu.Lawful)
    (printed : hemera.toHex = hexText) (free : hemera.CollisionFree chunks) (durable : world.Durable nebu chunks failures history)
    {first : Call} (opens : world.Opens first)
    (bearable : Bearable nebu chunks failures (first :: calls) last)
    (attachments : world.manager.attachments <+: last.manager.attachments) :
    (call nebu merkle first world).2.Durable nebu chunks failures fun name =>
      history name ++ takes name first (call nebu merkle first world).1 := by
  have bound (diskName : String) : (world.manager.deviceNames diskName).length ≤ 2 ^ 32 :=
    (deviceNames_sublist attachments diskName).length_le.trans (bearable.bound diskName)
  have distinct (diskName : String) (positive : 0 < failures) :
      (world.manager.deviceNames diskName).Nodup :=
    (bearable.distinct positive diskName).sublist (deviceNames_sublist attachments diskName)
  cases first with
  | createDisk config =>
      have tolerant := bearable.tolerant config List.mem_cons_self
      simp only [takes, List.append_nil]
      exact durable.createDisk tolerant
  | attach deviceName diskName capacity =>
      simp only [takes, List.append_nil]
      exact durable.attach opens
  | putFile now diskName fileName data =>
      have contained := bearable.encoded now diskName fileName data List.mem_cons_self
      exact durable.putFile (bound diskName) (distinct diskName) now fileName contained
  | rechunk stores files clock diskName =>
      simp only [takes, List.append_nil]
      exact durable.rechunk lawful printed free (bound diskName) (distinct diskName) stores files clock
  | rebalance share files diskName =>
      simp only [takes, List.append_nil]
      exact Durable.rebalance printed free share files diskName world durable

theorem run_durable (lawful : nebu.Lawful) (printed : hemera.toHex = hexText)
    (free : hemera.CollisionFree chunks) (durable : world.Durable nebu chunks failures history)
    (opens : world.AllOpen nebu merkle calls) (bearable : Bearable nebu chunks failures calls last)
    (attachments : (world.run nebu merkle calls).manager.attachments <+: last.manager.attachments) :
    (world.run nebu merkle calls).Durable nebu chunks failures fun name =>
      history name ++ accepted nebu merkle name world calls := by
  induction calls generalizing world history with
  | nil =>
      simp only [accepted, List.append_nil]
      exact durable
  | cons first rest ih =>
      have next := call_durable merkle lawful printed free durable opens.1 bearable
        ((run_attachments (first :: rest) world).trans attachments)
      have whole := ih next opens.2 (bearable.subset (List.subset_cons_self first rest)) attachments
      simp only [List.append_assoc] at whole
      exact whole

/-- The chunks that lie there before the run, and those its files may be encoded to. -/
def chunksOfRun (world : World hemera) (nebu : Nebu) (calls : List Call) : Set (List UInt8) :=
  {bytes | ∃ hash place, world.tree.node (hemera.toHex hash :: place) = some (.file bytes)} ∪
  {bytes | ∃ now diskName fileName data, .putFile now diskName fileName data ∈ calls ∧
    bytes ∈ encodings nebu data}

/-- A run from `first` on devices that have room, in which every `attach` opens its store,
no two chunks collide, and every disk tolerates the failures. -/
structure Unharmed (first : World hemera) (nebu : Nebu) (merkle : HemeraTree) (failures : Nat)
    (calls : List Call) : Prop where
  opens : first.AllOpen nebu merkle calls
  vacant : ∀ hash place written,
    first.tree.obstacle (hemera.toHex hash :: place) ≠ some (.full written)
  honest : ∀ hash place bytes, first.tree.node (hemera.toHex hash :: place) = some (.file bytes) →
    hemera.toHex (hemera.hash bytes) = hemera.toHex hash
  free : hemera.CollisionFree (first.chunksOfRun nebu calls)
  tolerant : ∀ config, .createDisk config ∈ calls →
    ∀ devices, failures ≤ config.redundancy.failures devices
  bound : ∀ diskName, ((first.run nebu merkle calls).manager.deviceNames diskName).length ≤ 2 ^ 32
  distinct : 0 < failures →
    ∀ diskName, ((first.run nebu merkle calls).manager.deviceNames diskName).Nodup

theorem Unharmed.bearable (unharmed : world.Unharmed nebu merkle failures calls) :
    Bearable nebu (world.chunksOfRun nebu calls) failures calls (world.run nebu merkle calls) where
  tolerant := unharmed.tolerant
  encoded now diskName fileName data member _ coded :=
    .inr ⟨now, diskName, fileName, data, member, coded⟩
  bound := unharmed.bound
  distinct := unharmed.distinct

theorem Unharmed.start (unharmed : world.Unharmed nebu merkle failures calls) {place : Location}
    {path : String} {tree : FileTree} (started : World.start place path tree = .ok world) :
    world.Durable nebu (world.chunksOfRun nebu calls) failures fun _ => [] := by
  have bare : ∃ root, world.manager = .empty root := by
    rw [World.start] at started
    split at started
    · rename_i manager tree made
      cases started
      obtain ⟨root, between, -, returned⟩ := Action.bind_eq_ok_iff.mp made
      cases returned
      exact ⟨root, rfl⟩
    · cases started
    · cases started
  obtain ⟨root, bare⟩ := bare
  exact
    { equipped := start_equipped started
      addressed :=
        { files := fun hash place bytes file =>
            ⟨unharmed.honest hash place bytes file, .inl ⟨hash, place, file⟩⟩
          index := fun name store hex bytes opened => by
            rw [bare] at opened
            cases opened }
      vacant := unharmed.vacant
      tolerant := fun name config found => by
        rw [bare] at found
        cases found
      encoded := fun _ _ given => by cases given
      files := fun name => .inl ⟨by rw [bare]; rfl, rfl⟩ }

/-- No file is ever lost: whatever the calls were and whatever each of them returned, a file
is not found if no `put_file` has accepted it, and otherwise it is read as data that it was
given, even after the loss of as many devices as every disk tolerates. -/
theorem accepted_files_survive (nebu : Nebu) (lawful : nebu.Lawful) (merkle : HemeraTree)
    (printed : hemera.toHex = hexText) (place : Location) (path : String) (tree : FileTree)
    (first : World hemera) (started : start place path tree = .ok first) (failures : Nat)
    (calls : List Call) (unharmed : first.Unharmed nebu merkle failures calls) (name : String) :
    let world := first.run nebu merkle calls
    let contents := first.accepted nebu merkle name calls
    contents = [] ∧ (∀ lost stores,
        (world.lose lost).getFile nebu stores name = .err s!"file '{name}' not found") ∨
      ∃ data ∈ contents, ∀ lost stores, lost.length ≤ failures →
        (world.lose lost).getFile nebu stores name = .ok data := by
  intro world contents
  have durable := run_durable lawful printed unharmed.free (unharmed.start started) unharmed.opens
    unharmed.bearable (List.prefix_refl _)
  rcases durable.files name with ⟨absent, empty⟩ | ⟨data, given, devices, entry, shards, filed⟩
  · refine .inl ⟨empty, fun lost stores => ?_⟩
    have missing : (world.lose lost).manager.registry.get name = none := by
      change (world.manager.registry.getRaw name).filter _ = none
      rw [absent]
      rfl
    simp only [getFile, missing]
  · exact .inr ⟨data, given, fun lost stores few =>
      filed.getFile lawful printed unharmed.free durable.addressed.sound few stores⟩

section Example

/-- Two devices on a disk that tolerates the loss of one. -/
def twoDeviceCalls : List Call :=
  [.createDisk { name := "work", redundancy := .tolerate 1, shardCopies := 1 },
    .attach "laptop" "work" 0, .attach "phone" "work" 0]

def upkeep : List Call :=
  [.rebalance (fun used _ _ => used) .sorted "work", .rechunk .sorted .sorted (fun _ => 6) "work"]

def keptNote : List Call := twoDeviceCalls ++ .putFile 5 "work" "notes" [7] :: upkeep

theorem keptNote_put : (putFile naiveNebu .truncating 5 "work" "notes" [7]
    (bareWorld.run naiveNebu .truncating twoDeviceCalls)).1.void = .ok () := by
  rw [naiveNebu_eq]
  decide +kernel

theorem keptNote_attachments : (bareWorld.run naiveNebu .truncating keptNote).manager.attachments =
    [⟨"laptop", "work", 0⟩, ⟨"phone", "work", 0⟩] := by
  have attached : (bareWorld.run naiveNebu .truncating twoDeviceCalls).manager.attachments =
      [⟨"laptop", "work", 0⟩, ⟨"phone", "work", 0⟩] := rfl
  rw [keptNote, run_append, upkeep, run, run, run, run]
  iterate 3 rw [call_attachments_eq _ (by simp)]
  exact attached

theorem keptNote_deviceNames (diskName : String) :
    ((bareWorld.run naiveNebu .truncating keptNote).manager.deviceNames diskName).Sublist
      ["laptop", "phone"] := by
  rw [VDiskManager.deviceNames, keptNote_attachments]
  exact List.filter_sublist.map DeviceAttachment.deviceName

theorem keptNote_unharmed : bareWorld.Unharmed naiveNebu .truncating 1 keptNote where
  opens := ⟨trivial, fun _ _ => ⟨["laptop"], rfl⟩, fun _ _ => ⟨["phone"], rfl⟩, trivial, trivial,
    trivial, trivial⟩
  vacant hash place written full := by cases full
  honest hash place bytes file := by cases file
  free := by
    refine (Hemera.truncating_collisionFree (by decide : 8 ≤ 32)).mono ?_
    rintro bytes (⟨hash, place, file⟩ | ⟨now, diskName, fileName, data, member, coded⟩)
    · cases file
    · obtain ⟨k, n, shards, coded, shard, dealt, rfl⟩ := coded
      simp [keptNote, twoDeviceCalls, upkeep] at member
      exact length_of_oneByte (by rw [member.2.2.2]; rfl) coded dealt
  tolerant config member devices := by
    have disk : config = { name := "work", redundancy := .tolerate 1, shardCopies := 1 } := by
      simpa [keptNote, twoDeviceCalls, upkeep] using member
    rw [disk]
    exact le_rfl
  bound diskName := (keptNote_deviceNames diskName).length_le.trans (by decide)
  distinct _ diskName := (by decide : ["laptop", "phone"].Nodup).sublist (keptNote_deviceNames diskName)

/-- The note outlasts the loss of a device. -/
theorem accepted_files_survive_lost_laptop :
    ((bareWorld.run naiveNebu .truncating keptNote).lose ["laptop"]).getFile naiveNebu .sorted
      "notes" = .ok [7] := by
  have given : bareWorld.accepted naiveNebu .truncating "notes" keptNote = [[7]] := by
    have before : bareWorld.accepted naiveNebu .truncating "notes" twoDeviceCalls = [] := by
      simp only [twoDeviceCalls, accepted, takes, List.append_nil]
    have later (world : World Hemera.truncating) :
        world.accepted naiveNebu .truncating "notes" upkeep = [] := by
      simp only [upkeep, accepted, takes, List.append_nil]
    rw [keptNote, accepted_append, before, accepted, later,
      takes_putFile (call_putFile.trans keptNote_put)]
    rfl
  rcases accepted_files_survive naiveNebu naiveNebu_lawful .truncating rfl [] "" bareWorld.tree
    bareWorld rfl 1 keptNote keptNote_unharmed "notes" with ⟨empty, -⟩ | ⟨data, member, read⟩
  · rw [given] at empty
    cases empty
  · rw [given, List.mem_singleton] at member
    exact member ▸ read ["laptop"] .sorted le_rfl

end Example

/-- A call that returned has filed the data, unless the registry has a later entry. -/
theorem putFile_filed {now : UInt64} {diskName : String} {commitment : DasCommitment}
    (durable : world.Durable nebu chunks failures history)
    (bound : (world.manager.deviceNames diskName).length ≤ 2 ^ 32)
    (distinct : 0 < failures → (world.manager.deviceNames diskName).Nodup)
    (contained : encodings nebu data ⊆ chunks)
    (newest : ∀ existing, world.manager.registry.getRaw name = some existing →
      existing.timestamp < now)
    (stored : putFile nebu merkle now diskName name data world = (.ok commitment, after)) :
    ∃ entry shards, after.Filed nebu chunks failures name data
      (world.manager.deviceNames diskName) entry shards := by
  obtain ⟨config, k, hashes, between, disk, nonempty, counted, coded, dealt, -, rfl⟩ :=
    putFile_ok stored
  have distributed := distribute_ok nonempty durable.attached dealt
  have tolerated := durable.tolerant diskName config disk
    (world.manager.deviceNames diskName).length
  have enough : k + failures ≤ (world.manager.deviceNames diskName).length := by omega
  have held : (between.register (fileEntry merkle hemera name data k
      (nextPowerOfTwo (world.manager.deviceNames diskName).length) hashes now commitment
        1)).manager.registry.getRaw name = some _ :=
    GSet.getRaw_insert_newer fun existing found =>
      newest existing (distributed.registry_eq ▸ found)
  exact ⟨_, _,
    { registered := congrArg (Option.filter fun found : FileEntry => !found.deleted) held
      codes := ⟨coded, nextPowerOfTwo_le bound, rfl, distributed.hashes_eq⟩
      known := mem_encodings coded contained
      indexed := distributed.indexed
      covers := le_nextPowerOfTwo _
      outlasts := outlasts_of_nodup enough distinct }⟩

/-- What a `put_file` has stored under a clock later than the entry of the file is what the
file is read as ever after, until `put_file` accepts other data for it. -/
theorem newest_put_survives (nebu : Nebu) (lawful : nebu.Lawful) (merkle : HemeraTree)
    (printed : hemera.toHex = hexText) (place : Location) (path : String) (tree : FileTree)
    (first : World hemera) (started : start place path tree = .ok first) (failures : Nat)
    (before later : List Call) (now : UInt64) (diskName name : String) (data : List UInt8)
    (unharmed : first.Unharmed nebu merkle failures
      (before ++ .putFile now diskName name data :: later))
    (newest : ∀ existing, (first.run nebu merkle before).manager.registry.getRaw name =
      some existing → existing.timestamp < now)
    (commitment : DasCommitment) (after : World hemera)
    (stored : putFile nebu merkle now diskName name data (first.run nebu merkle before) =
      (.ok commitment, after))
    (last : after.accepted nebu merkle name later = []) (lost : List String)
    (few : lost.length ≤ failures) (stores : Walk) :
    ((after.run nebu merkle later).lose lost).getFile nebu stores name = .ok data := by
  have called : (call nebu merkle (.putFile now diskName name data)
      (first.run nebu merkle before)).2 = after := by
    change (putFile nebu merkle now diskName name data (first.run nebu merkle before)).2 = after
    rw [stored]
  have whole : first.run nebu merkle (before ++ .putFile now diskName name data :: later) =
      after.run nebu merkle later := by
    rw [run_append, run, called]
  obtain ⟨opensBefore, opensPut, opensLater⟩ := allOpen_append.mp unharmed.opens
  rw [called] at opensLater
  have bearable := unharmed.bearable
  rw [whole] at bearable
  have bearablePut := bearable.subset (List.subset_append_right before _)
  have attachments : (first.run nebu merkle before).manager.attachments <+:
      (after.run nebu merkle later).manager.attachments := by
    rw [← whole, run_append]
    exact run_attachments _ _
  have durable := run_durable lawful printed unharmed.free (unharmed.start started) opensBefore
    (bearable.subset (List.subset_append_left before _)) attachments
  have contained := bearablePut.encoded now diskName name data List.mem_cons_self
  obtain ⟨entry, shards, filed⟩ := putFile_filed durable
    ((deviceNames_sublist attachments diskName).length_le.trans (bearable.bound diskName))
    (fun positive => (bearable.distinct positive diskName).sublist
      (deviceNames_sublist attachments diskName)) contained newest stored
  have given := call_durable merkle lawful printed unharmed.free durable opensPut bearablePut attachments
  rw [called] at given
  have final := run_durable lawful printed unharmed.free (given.filed filed contained) opensLater
    (bearablePut.subset (List.subset_cons_self _ later)) (List.prefix_refl _)
  rcases final.files name with ⟨-, empty⟩ | ⟨other, member, devices, entry, shards, filed⟩
  · simp at empty
  · rw [if_pos rfl, last, List.append_nil, List.mem_singleton] at member
    exact member ▸ filed.getFile lawful printed unharmed.free final.addressed.sound few stores

theorem newest_put_survives_upkeep : (((putFile naiveNebu .truncating 5 "work" "notes" [7]
    (bareWorld.run naiveNebu .truncating twoDeviceCalls)).2.run naiveNebu .truncating upkeep).lose
      ["phone"]).getFile naiveNebu .sorted "notes" = .ok [7] := by
  obtain ⟨commitment, stored⟩ := Outcome.void_eq_ok.mp keptNote_put
  refine newest_put_survives naiveNebu naiveNebu_lawful .truncating rfl [] "" bareWorld.tree bareWorld
    rfl 1 twoDeviceCalls upkeep 5 "work" "notes" [7] keptNote_unharmed ?_ commitment _
    (Action.eq_of_fst_ok stored) rfl ["phone"] le_rfl .sorted
  intro existing found
  cases found

end Run

end Foculus.VDisk.World

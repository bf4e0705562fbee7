import Foculus.Data.Reach
import Foculus.VDisk.Rollback

namespace Foculus.VDisk

open Data Erasure Store

/-! # The puts that `rechunk` comes to

`rechunk` stops at the first put that fails, so each of its puts happens in a world
in which all the puts before it have succeeded. -/

variable {hemera : Hemera}

/-- The loop of a `rechunk` over its files. -/
structure Loop where
  nebu : Nebu
  merkle : HemeraTree
  stores : Walk
  clock : String → UInt64
  config : DiskConfig
  deviceNames : List String
  k : Nat
  fileNames : List String

namespace World

/-- The loop of `rechunk`; it is over no file unless the disk has two devices and as
many as it may lose. -/
def loop (world : World hemera) (nebu : Nebu) (merkle : HemeraTree) (stores files : Walk)
    (clock : String → UInt64) (diskName : String) (config : DiskConfig) : Loop :=
  let deviceNames := world.manager.deviceNames diskName
  let devices := deviceNames.length
  let failures := config.redundancy.failures devices
  { nebu, merkle, stores, clock, config, deviceNames
    k := devices - failures
    fileNames := if 2 ≤ devices ∧ failures ≤ devices then
      world.outdated files (devices - failures) (nextPowerOfTwo devices) else [] }

/-- Dealing out the shards comes to the shard in the world `now`. -/
def Comes (world : World hemera) (deviceNames : List String) (shards : List Shard) (shard : Shard)
    (now : World hemera) : Prop :=
  Action.Reaches (fun other => (putShard (deviceOf deviceNames other) other).void) shards world shard
    now

end World

namespace Loop

variable (loop : Loop)

def n : Nat := nextPowerOfTwo loop.deviceNames.length

def round (fileName : String) : Action (World hemera) String Bool :=
  World.rechunkFile loop.nebu loop.merkle loop.stores (loop.clock fileName) loop.config
    loop.deviceNames loop.k loop.n fileName

def run : Action (World hemera) String (Nat × Nat) :=
  World.rechunkFiles loop.round loop.fileNames

/-- The entry that a round writes. -/
def entry (hemera : Hemera) (fileName : String) (data : List UInt8) (shards : List Shard)
    (hashes : List String) (registry : GSet) : FileEntry :=
  World.rewritten loop.merkle hemera (loop.clock fileName) loop.config loop.k loop.n fileName data
    shards hashes registry

/-- The loop comes to the file in the world `between`. -/
def Turn (world : World hemera) (fileName : String) (between : World hemera) : Prop :=
  Action.Reaches (fun name => (loop.round name).void) loop.fileNames world fileName between

/-- The loop reads the file in the world `between` and encodes it anew. -/
structure Encodes (world : World hemera) (fileName : String) (between : World hemera)
    (data : List UInt8) (shards : List Shard) : Prop where
  turn : loop.Turn world fileName between
  read : between.getFile loop.nebu loop.stores fileName = .ok data
  coded : encode loop.nebu data loop.k loop.n = some shards

/-- The loop puts the shard, in the world `now`. -/
def Deals (world : World hemera) (shard : Shard) (now : World hemera) : Prop :=
  ∃ fileName between data shards, loop.Encodes world fileName between data shards ∧
    between.Comes loop.deviceNames shards shard now

end Loop

namespace World

section Distribute

variable {world after : World hemera} {deviceNames : List String} {shards : List Shard}

/-- But for the hashes it returns, dealing out the shards is a plain loop. -/
theorem distribute_void (deviceNames : List String) (shards : List Shard) :
    (distribute deviceNames shards : Action (World hemera) String _).void =
      Action.each (fun shard => (putShard (deviceOf deviceNames shard) shard).void) shards := by
  induction shards with
  | nil => rfl
  | cons first rest ih =>
      rw [distribute, Action.each, Action.void_then, Action.void_bind, ← ih]
      simp only [Action.void_map]
      rfl

theorem distribute_snd (deviceNames : List String) (shards : List Shard) (world : World hemera) :
    (distribute deviceNames shards world).2 = (Action.each (fun shard =>
      (putShard (deviceOf deviceNames shard) shard).void) shards world).2 := by
  rw [← distribute_void]
  rfl

/-- The shards are all dealt when every put that is come to succeeds. -/
theorem distribute_ok_iff :
    (∃ hashes after, distribute deviceNames shards world = (.ok hashes, after)) ↔
      ∀ shard now, world.Comes deviceNames shards shard now →
        now.Accepts (deviceOf deviceNames shard) shard := by
  have returned : (∃ hashes after, distribute deviceNames shards world = (.ok hashes, after)) ↔
      ((distribute deviceNames shards).void world).1 = .ok () := by
    constructor
    · rintro ⟨hashes, after, run⟩
      exact congrArg Prod.fst (Action.void_eq_ok_iff.mpr ⟨hashes, run⟩)
    · intro returned
      obtain ⟨hashes, run⟩ := Action.void_eq_ok_iff.mp (Action.eq_of_fst_ok returned)
      exact ⟨hashes, _, run⟩
  rw [returned, distribute_void, Action.each_ok_iff]
  refine forall_congr' fun shard => forall_congr' fun now => imp_congr_right fun _ => ?_
  rw [← putShard_ok_iff]
  constructor
  · intro returned
    obtain ⟨hash, put⟩ := Action.void_eq_ok_iff.mp (Action.eq_of_fst_ok returned)
    exact ⟨hash, _, put⟩
  · rintro ⟨hash, after, put⟩
    exact congrArg Prod.fst (Action.void_eq_ok_iff.mpr ⟨hash, put⟩)

theorem Comes.mem {shard : Shard} {now : World hemera}
    (comes : world.Comes deviceNames shards shard now) : shard ∈ shards :=
  Action.Reaches.mem comes

/-- What every put that succeeds keeps holds in each world in which a shard is put. -/
theorem Comes.keeps {invariant : World hemera → Prop} {shard : Shard} {now : World hemera}
    (comes : world.Comes deviceNames shards shard now) (holds : invariant world)
    (kept : ∀ {shard now hash after}, world.Comes deviceNames shards shard now → invariant now →
      putShard (deviceOf deviceNames shard) shard now = (.ok hash, after) → invariant after) :
    invariant now := by
  refine Action.Reaches.keeps comes (fun reached before called => ?_) holds
  obtain ⟨hash, put⟩ := Action.void_eq_ok_iff.mp called
  exact kept reached before put

/-- Dealing out shards leaves the world as it was, or what the last put leaves. -/
theorem distribute_last {final : World hemera → Prop} (start : final world)
    (last : ∀ shard now, world.Comes deviceNames shards shard now →
      final (putShard (deviceOf deviceNames shard) shard now).2) :
    final (distribute deviceNames shards world).2 := by
  rw [distribute_snd]
  exact Action.each_last start last

/-- Once the shards are all dealt, what every put keeps holds. -/
theorem distribute_keeps {invariant : World hemera → Prop} {hashes : List String}
    (run : distribute deviceNames shards world = (.ok hashes, after)) (holds : invariant world)
    (kept : ∀ {shard now hash after}, world.Comes deviceNames shards shard now → invariant now →
      putShard (deviceOf deviceNames shard) shard now = (.ok hash, after) → invariant after) :
    invariant after := by
  have accepted := distribute_ok_iff.mp ⟨hashes, after, run⟩
  have last : invariant (distribute deviceNames shards world).2 := by
    refine distribute_last holds fun shard now comes => ?_
    obtain ⟨hash, next, put⟩ := putShard_ok_iff.mpr (accepted shard now comes)
    rw [put]
    exact kept comes (comes.keeps holds kept) put
  rwa [run] at last

theorem Comes.grows {shard : Shard} {now : World hemera}
    (comes : world.Comes deviceNames shards shard now) : world.Grows now := by
  refine comes.keeps (.refl world) fun {shard now _ _} _ before put => before.trans ?_
  have grows := putShard_grows now (deviceOf deviceNames shard) shard
  rwa [put] at grows

end Distribute

end World

namespace Loop

variable {loop : Loop} {world between now after : World hemera} {fileName : String}
  {data : List UInt8} {shards : List Shard} {shard : Shard}

theorem run_void : (loop.run : Action (World hemera) String _).void =
    Action.each (fun name => (loop.round name).void) loop.fileNames :=
  World.rechunkFiles_void loop.round loop.fileNames

theorem run_snd : (loop.run world).2 =
    (Action.each (fun name => (loop.round name).void) loop.fileNames world).2 := by
  rw [← run_void]
  rfl

/-- What a round leaves: the world as it was, what its last put leaves, or that with
the new entry. -/
theorem round_last {final : World hemera → Prop} (start : final between)
    (put : ∀ {data shards shard now}, between.getFile loop.nebu loop.stores fileName = .ok data →
      encode loop.nebu data loop.k loop.n = some shards →
      between.Comes loop.deviceNames shards shard now →
      final (World.putShard (deviceOf loop.deviceNames shard) shard now).2)
    (register : ∀ {data shards hashes dealt},
      between.getFile loop.nebu loop.stores fileName = .ok data →
      encode loop.nebu data loop.k loop.n = some shards →
      World.distribute loop.deviceNames shards between = (.ok hashes, dealt) →
      final (dealt.register (loop.entry hemera fileName data shards hashes
        between.manager.registry))) :
    final (loop.round fileName between).2 := by
  rw [round, World.rechunkFile, Action.get_bind]
  cases read : between.getFile loop.nebu loop.stores fileName with
  | err reason => exact start
  | panic => exact start
  | ok data =>
      simp only
      cases coded : encode loop.nebu data loop.k loop.n with
      | none => exact start
      | some shards =>
          rw [Action.expect_some_bind]
          have dealt : final (World.distribute loop.deviceNames shards between).2 :=
            World.distribute_last start fun shard now => put read coded
          rcases called : World.distribute loop.deviceNames shards between with ⟨outcome, after⟩
          rw [called] at dealt
          cases outcome with
          | ok hashes =>
              rw [Action.bind_ok called, Action.modify_bind]
              have same : after.manager.registry = between.manager.registry :=
                (World.distribute_returned called).registry
              have registered := register read coded called
              rw [← same] at registered
              exact registered
          | err reason =>
              rw [Action.bind_err called]
              exact dealt
          | panic =>
              rw [Action.bind_panic called]
              exact dealt

theorem round_ok {rewritten : Bool}
    (returned : loop.round fileName between = (.ok rewritten, after)) :
    (∃ reason, between.getFile loop.nebu loop.stores fileName = .err reason) ∧ after = between ∨
    ∃ data shards hashes dealt,
      between.getFile loop.nebu loop.stores fileName = .ok data ∧
      encode loop.nebu data loop.k loop.n = some shards ∧
      World.distribute loop.deviceNames shards between = (.ok hashes, dealt) ∧
      after = dealt.register (loop.entry hemera fileName data shards hashes
        between.manager.registry) := by
  have done := @World.rechunkFile_spec hemera loop.nebu loop.merkle loop.stores
    (loop.clock fileName) loop.config loop.deviceNames loop.k loop.n fileName between between rfl
  have called : World.rechunkFile loop.nebu loop.merkle loop.stores (loop.clock fileName) loop.config
    loop.deviceNames loop.k loop.n fileName between = (.ok rewritten, after) := returned
  rw [called] at done
  rcases done with ⟨unread, -, same⟩ | ⟨-, written⟩
  · exact .inl ⟨unread, same⟩
  · exact .inr written

/-- The round of a file that is read and encoded deals out its shards and then writes
its entry. -/
theorem Encodes.round_eq (encodes : loop.Encodes world fileName between data shards) :
    loop.round fileName between = (World.distribute loop.deviceNames shards >>= fun hashes => do
      Action.modify fun after => after.register
        (loop.entry hemera fileName data shards hashes after.manager.registry)
      return true) between := by
  rw [round, World.rechunkFile, Action.get_bind, encodes.read]
  simp only [encodes.coded, Action.expect_some_bind]
  rfl

theorem Encodes.round_ok {hashes : List String}
    (encodes : loop.Encodes world fileName between data shards)
    (dealt : World.distribute loop.deviceNames shards between = (.ok hashes, after)) :
    (loop.round fileName between).2 = after.register (loop.entry hemera fileName data shards hashes
      between.manager.registry) := by
  rw [encodes.round_eq, Action.bind_ok dealt, Action.modify_bind,
    ← (World.distribute_returned dealt).registry]
  rfl

section Run

variable {invariant final : World hemera → Prop}

/-- What every put that succeeds keeps, and every entry that is written, holds in each
world in which the loop comes to a file or a put. -/
theorem reached (start : invariant world)
    (put : ∀ {shard now hash after}, loop.Deals world shard now → invariant now →
      World.putShard (deviceOf loop.deviceNames shard) shard now = (.ok hash, after) →
      invariant after)
    (register : ∀ {fileName between data shards hashes dealt},
      loop.Encodes world fileName between data shards →
      World.distribute loop.deviceNames shards between = (.ok hashes, dealt) →
      invariant between → invariant dealt →
      invariant (dealt.register (loop.entry hemera fileName data shards hashes
        between.manager.registry))) :
    (∀ fileName between, loop.Turn world fileName between → invariant between) ∧
      ∀ shard now, loop.Deals world shard now → invariant now := by
  have dealing : ∀ {fileName between data shards}, loop.Encodes world fileName between data shards →
      invariant between → ∀ {shard now}, between.Comes loop.deviceNames shards shard now →
      invariant now := by
    intro fileName between data shards encodes holds shard now comes
    exact comes.keeps holds fun here => put ⟨_, _, _, _, encodes, here⟩
  have turns : ∀ fileName between, loop.Turn world fileName between → invariant between := by
    intro fileName between turn
    refine Action.Reaches.keeps turn (fun {name middle after} here before called => ?_) start
    obtain ⟨rewritten, returned⟩ := Action.void_eq_ok_iff.mp called
    rcases round_ok returned with ⟨-, rfl⟩ | ⟨data, shards, hashes, dealt, read, coded, run, rfl⟩
    · exact before
    · have encodes : loop.Encodes world name middle data shards := ⟨here, read, coded⟩
      refine register encodes run before ?_
      exact World.distribute_keeps run before fun here => put ⟨_, _, _, _, encodes, here⟩
  refine ⟨turns, ?_⟩
  rintro shard now ⟨fileName, between, data, shards, encodes, comes⟩
  exact dealing encodes (turns fileName between encodes.turn) comes

theorem Deals.grows (deals : loop.Deals world shard now) : world.Grows now := by
  refine (reached (.refl world) ?_ ?_).2 shard now deals
  · intro shard now hash after _ before put
    have grows := World.putShard_grows now (deviceOf loop.deviceNames shard) shard
    rw [put] at grows
    exact before.trans grows
  · exact fun _ _ _ dealt => dealt.register _

/-- The run leaves the world in which it comes to a file, or what its last put leaves,
or that with a new entry. -/
theorem run_last (start : final world)
    (turn : ∀ {fileName between}, loop.Turn world fileName between → final between)
    (put : ∀ {shard now}, loop.Deals world shard now →
      final (World.putShard (deviceOf loop.deviceNames shard) shard now).2)
    (register : ∀ {fileName between data shards hashes dealt},
      loop.Encodes world fileName between data shards →
      World.distribute loop.deviceNames shards between = (.ok hashes, dealt) →
      final (dealt.register (loop.entry hemera fileName data shards hashes
        between.manager.registry))) :
    final (loop.run world).2 := by
  rw [run_snd]
  refine Action.each_last start fun fileName between here => ?_
  refine round_last (turn here) ?_ ?_
  · exact fun read coded comes => put ⟨_, _, _, _, ⟨here, read, coded⟩, comes⟩
  · exact fun read coded run => register ⟨here, read, coded⟩ run

/-- What every put keeps, whatever it returns, and every entry that is written, the
run keeps. -/
theorem run_keeps (start : invariant world)
    (put : ∀ {shard now}, loop.Deals world shard now → invariant now →
      invariant (World.putShard (deviceOf loop.deviceNames shard) shard now).2)
    (register : ∀ {fileName between data shards hashes dealt},
      loop.Encodes world fileName between data shards →
      World.distribute loop.deviceNames shards between = (.ok hashes, dealt) →
      invariant between → invariant dealt →
      invariant (dealt.register (loop.entry hemera fileName data shards hashes
        between.manager.registry))) :
    invariant (loop.run world).2 := by
  have returned : ∀ {shard now hash after}, loop.Deals world shard now → invariant now →
      World.putShard (deviceOf loop.deviceNames shard) shard now = (.ok hash, after) →
      invariant after := by
    intro shard now hash after deals before called
    have kept := put deals before
    rwa [called] at kept
  obtain ⟨turns, puts⟩ := reached start returned register
  refine run_last start (fun turn => turns _ _ turn) (fun deals => put deals (puts _ _ deals)) ?_
  intro fileName between data shards hashes dealt encodes run
  have before := turns fileName between encodes.turn
  refine register encodes run before ?_
  exact World.distribute_keeps run before fun here => returned ⟨_, _, _, _, encodes, here⟩

theorem run_grows (loop : Loop) (world : World hemera) : world.Grows (loop.run world).2 := by
  refine run_keeps (.refl world) ?_ fun _ _ _ dealt => dealt.register _
  exact fun _ before => before.trans (World.putShard_grows ..)

end Run

section Afterwards

variable {invariant : World hemera → Prop}

theorem round_keeps (put : ∀ deviceName shard, (World.putShard deviceName shard).Keeps invariant)
    (register : ∀ entry after, invariant after → invariant (after.register entry))
    (fileName : String) : (loop.round fileName).Keeps invariant := by
  intro between holds
  have dealt : ∀ shards, (World.distribute loop.deviceNames shards).Keeps invariant := by
    intro shards world before
    rw [World.distribute_snd]
    exact Action.keeps_each (fun shard _ => Action.keeps_void (put _ shard)) world before
  refine round_last holds ?_ ?_
  · intro data shards shard now _ _ comes
    refine put _ shard now (comes.keeps holds fun {other middle _ _} _ before called => ?_)
    have kept := put (deviceOf loop.deviceNames other) other middle before
    rwa [called] at kept
  · intro data shards hashes after _ _ run
    have kept := dealt shards between holds
    rw [run] at kept
    exact register _ _ kept

/-- What a round has left and every put and every new entry keep is there in the end. -/
theorem Turn.keeps_to_end (turn : loop.Turn world fileName between)
    (put : ∀ deviceName shard, (World.putShard deviceName shard).Keeps invariant)
    (register : ∀ entry after, invariant after → invariant (after.register entry))
    (left : invariant (loop.round fileName between).2) : invariant (loop.run world).2 := by
  rw [run_snd]
  exact Action.Reaches.keeps_to_end turn (fun name => Action.keeps_void (round_keeps put register name))
    left

/-- What a put has left and every put and every new entry keep is there in the end. -/
theorem Deals.keeps_to_end (deals : loop.Deals world shard now)
    (put : ∀ deviceName shard, (World.putShard deviceName shard).Keeps invariant)
    (register : ∀ entry after, invariant after → invariant (after.register entry))
    (left : invariant (World.putShard (deviceOf loop.deviceNames shard) shard now).2) :
    invariant (loop.run world).2 := by
  obtain ⟨fileName, between, data, shards, encodes, comes⟩ := deals
  refine encodes.turn.keeps_to_end put register ?_
  have dealt : invariant (World.distribute loop.deviceNames shards between).2 := by
    rw [World.distribute_snd]
    exact Action.Reaches.keeps_to_end comes (fun other => Action.keeps_void (put _ other)) left
  rw [encodes.round_eq]
  rcases called : World.distribute loop.deviceNames shards between with ⟨outcome, after⟩
  rw [called] at dealt
  cases outcome with
  | ok hashes =>
      rw [Action.bind_ok called, Action.modify_bind]
      exact register _ _ dealt
  | err reason =>
      rw [Action.bind_err called]
      exact dealt
  | panic =>
      rw [Action.bind_panic called]
      exact dealt

/-- A put that fails ends the run. -/
theorem Deals.fails {reason : String} (deals : loop.Deals world shard now)
    (failed : World.putShard (deviceOf loop.deviceNames shard) shard now = (.err reason, after)) :
    loop.run world = (.err reason, after) := by
  obtain ⟨fileName, between, data, shards, encodes, comes⟩ := deals
  have dealt : World.distribute loop.deviceNames shards between = (.err reason, after) := by
    rw [← Action.void_eq_err_iff, World.distribute_void]
    exact Action.Reaches.fails comes (Action.void_eq_err_iff.mpr failed)
  have round : loop.round fileName between = (.err reason, after) :=
    encodes.round_eq.trans (Action.bind_err dealt)
  rw [← Action.void_eq_err_iff, run_void]
  exact Action.Reaches.fails encodes.turn (Action.void_eq_err_iff.mpr round)

/-- A run that returns has met no put that fails. -/
theorem Deals.accepts {counts : Nat × Nat} (deals : loop.Deals world shard now)
    (returned : (loop.run world).1 = .ok counts) :
    now.Accepts (deviceOf loop.deviceNames shard) shard := by
  rcases World.putShard_outcomes now (deviceOf loop.deviceNames shard) shard with
    ⟨accepts, -⟩ | ⟨-, store, written, reason, tree, -, -, failed, -⟩ | ⟨-, -, reason, failed⟩
  · exact accepts
  · rw [deals.fails failed] at returned
    cases returned
  · rw [deals.fails failed] at returned
    cases returned

end Afterwards

end Loop

namespace World

variable {diskName : String} {config : DiskConfig} {world : World hemera}

/-- On a disk with as many devices as it may lose, `rechunk` is its loop; on any other
it panics before it changes anything, and the loop is over no file. -/
theorem rechunk_eq_loop (nebu : Nebu) (merkle : HemeraTree) (stores files : Walk)
    (clock : String → UInt64) (disk : world.manager.disks[diskName]? = some config) :
    rechunk nebu merkle stores files clock diskName world =
        (world.loop nebu merkle stores files clock diskName config).run world ∨
      rechunk nebu merkle stores files clock diskName world = (.panic, world) ∧
        (world.loop nebu merkle stores files clock diskName config).fileNames = [] := by
  rcases rechunk_cases nebu merkle stores files clock diskName world with
    ⟨missing, -⟩ | ⟨found, known, ⟨few, run⟩ | ⟨two, ⟨below, run⟩ | ⟨tolerated, run⟩⟩⟩
  · rw [disk] at missing
    cases missing
  · left
    rw [run, Loop.run, loop, if_neg fun enough => absurd enough.1 (Nat.not_le.mpr few)]
    rfl
  · cases disk.symm.trans known
    refine .inr ⟨run, ?_⟩
    rw [loop, if_neg fun enough => absurd enough.2 (Nat.not_le.mpr below)]
  · cases disk.symm.trans known
    left
    rw [run, Loop.run, loop, if_pos ⟨two, tolerated⟩]
    rfl

theorem rechunk_snd (nebu : Nebu) (merkle : HemeraTree) (stores files : Walk)
    (clock : String → UInt64) (disk : world.manager.disks[diskName]? = some config) :
    (rechunk nebu merkle stores files clock diskName world).2 =
      ((world.loop nebu merkle stores files clock diskName config).run world).2 := by
  rcases rechunk_eq_loop nebu merkle stores files clock disk with run | ⟨run, none_listed⟩
  · rw [run]
  · rw [run, Loop.run, none_listed]
    rfl

theorem rechunk_grows (nebu : Nebu) (merkle : HemeraTree) (stores files : Walk)
    (clock : String → UInt64) (diskName : String) (world : World hemera) :
    world.Grows (rechunk nebu merkle stores files clock diskName world).2 := by
  cases disk : world.manager.disks[diskName]? with
  | none =>
      rcases rechunk_cases nebu merkle stores files clock diskName world with
        ⟨-, reason, run⟩ | ⟨config, found, -⟩
      · rw [run]
        exact .refl world
      · cases disk.symm.trans found
  | some config =>
      rw [rechunk_snd nebu merkle stores files clock disk]
      exact Loop.run_grows _ world

end World

end Foculus.VDisk

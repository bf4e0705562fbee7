import Foculus.VDisk.Advance
import Foculus.VDisk.Survival

namespace Foculus.VDisk.World

open Data Erasure Store

/-! # When `put_file` and `rechunk` panic

Both compute `k = n - f` of a user-chosen `f` and a number of devices that
changes, and hand it to an encoder that asserts `1 ≤ k ≤ n`.  `status` foresees
`n ≤ f` and asks for more devices; these two do not. -/

variable {hemera : Hemera} {nebu : Nebu} {merkle : HemeraTree} {world : World hemera}

/-- For a number of shards that is rounded up, `encode` asserts only that the
disk has more devices than it may lose. -/
theorem encode_next_eq_none_iff {data : List UInt8} {devices k failures : Nat}
    (total : devices = k + failures) :
    encode nebu data k (nextPowerOfTwo devices) = none ↔ k = 0 := by
  have covers := le_nextPowerOfTwo devices
  rw [encode_eq_none_iff]
  constructor
  · intro failed
    by_contra positive
    exact failed ⟨isPowerOfTwo_nextPowerOfTwo _, by omega, by omega⟩
  · rintro rfl ⟨-, positive, -⟩
    cases positive

/-- `put_file` panics on every disk with devices that is to survive the loss of
all of them. -/
theorem putFile_panic_iff (now : UInt64) (diskName fileName : String) (data : List UInt8) :
    (putFile nebu merkle now diskName fileName data world).1 = .panic ↔
      ∃ config, world.manager.disks[diskName]? = some config ∧
        0 < (world.manager.deviceNames diskName).length ∧
        (world.manager.deviceNames diskName).length ≤
          config.redundancy.failures (world.manager.deviceNames diskName).length := by
  rcases putFile_cases nebu merkle now diskName fileName data world with
    ⟨missing, reason, run⟩ | ⟨config, disk, ⟨none_attached, reason, run⟩ | ⟨attached,
      ⟨below, run⟩ | ⟨k, total, ⟨uncoded, run⟩ | ⟨coded, dealt⟩⟩⟩⟩
  · simp [run, missing]
  · simp [run, none_attached]
  · have positive := List.length_pos_iff.mpr attached
    simp only [run, true_iff]
    exact ⟨config, disk, positive, below.le⟩
  · have positive := List.length_pos_iff.mpr attached
    rw [encode_next_eq_none_iff total] at uncoded
    simp only [run, true_iff]
    exact ⟨config, disk, positive, by omega⟩
  · have positive : k ≠ 0 := by
      intro zero
      rw [(encode_next_eq_none_iff total).mpr zero] at coded
      cases coded
    have returned : (putFile nebu merkle now diskName fileName data world).1 ≠ .panic := by
      rcases dealt with ⟨hashes, between, -, run⟩ | ⟨reason, between, -, run⟩
      · simp [run]
      · simp [run]
    refine iff_of_false returned ?_
    rintro ⟨other, found, -, few⟩
    cases disk.symm.trans found
    omega

section Rechunk

variable {stores files : Walk} {clock : String → UInt64} {config : DiskConfig}
  {deviceNames : List String} {k n : Nat}

theorem rechunkFile_panic_iff (now : UInt64) (fileName : String) :
    (rechunkFile nebu merkle stores now config deviceNames k n fileName world).1 = .panic ↔
      world.getFile nebu stores fileName = .panic ∨
        ∃ data, world.getFile nebu stores fileName = .ok data ∧ encode nebu data k n = none := by
  have done := @rechunkFile_spec hemera nebu merkle stores now config deviceNames k n fileName world
    world rfl
  rcases called : rechunkFile nebu merkle stores now config deviceNames k n fileName world with
    ⟨outcome, after⟩
  rw [called] at done
  cases outcome with
  | ok rewritten =>
      rcases done with ⟨⟨reason, read⟩, -⟩ | ⟨-, data, shards, -, -, read, coded, -⟩
      · simp [read]
      · simp [read, coded]
  | err reason =>
      obtain ⟨data, shards, read, coded, -⟩ := done
      simp [read, coded]
  | panic => exact iff_of_true rfl done.2

/-- The loop panics when a round does, in the world that the rounds before it
have left. -/
theorem rechunkFiles_panic_iff {round : String → Action (World hemera) String Bool}
    (fileNames : List String) (world : World hemera) :
    (rechunkFiles round fileNames world).1 = .panic ↔
      ∃ earlier fileName later counts between, fileNames = earlier ++ fileName :: later ∧
        rechunkFiles round earlier world = (.ok counts, between) ∧
        (round fileName between).1 = .panic := by
  rw [← Action.void_panic_iff, rechunkFiles_void, Action.each_panic_iff]
  simp only [← rechunkFiles_void, Action.void_eq_ok_iff, Action.void_panic_iff]
  constructor
  · rintro ⟨earlier, fileName, later, between, split, ⟨counts, run⟩, aborted⟩
    exact ⟨earlier, fileName, later, counts, between, split, run, aborted⟩
  · rintro ⟨earlier, fileName, later, counts, between, split, run, aborted⟩
    exact ⟨earlier, fileName, later, between, split, ⟨counts, run⟩, aborted⟩

theorem rechunkFile_skips {now : UInt64} {fileName reason : String}
    (read : world.getFile nebu stores fileName = .err reason) :
    rechunkFile nebu merkle stores now config deviceNames k n fileName world =
      (.ok false, world) := by
  rw [rechunkFile, Action.get_bind, read]
  rfl

/-- With `k = 0` a round either skips its file or panics. -/
theorem rounds_zero_panic_iff (fileNames : List String) :
    (rounds nebu merkle stores clock config deviceNames 0 fileNames world).1 = .panic ↔
      ∃ fileName ∈ fileNames, ∀ reason, world.getFile nebu stores fileName ≠ .err reason := by
  rw [rounds, ← Action.void_panic_iff, rechunkFiles_void]
  induction fileNames with
  | nil => simp [Action.each]
  | cons first rest ih =>
      rw [Action.each, Action.void_then, Action.bind_panic_iff, rechunkFile_panic_iff]
      cases read : world.getFile nebu stores first with
      | err reason =>
          rw [rechunkFile_skips read]
          simp [read, ih]
      | ok data =>
          have uncoded : encode nebu data 0 (nextPowerOfTwo deviceNames.length) = none := by
            simp [encode_eq_none_iff]
          simp [read, uncoded]
      | panic => simp [read]

/-- Once every file can be encoded, a round panics only when it reads its file. -/
theorem rounds_panic_iff {failures : Nat} (total : deviceNames.length = k + failures)
    (positive : 0 < k) (fileNames : List String) :
    (rounds nebu merkle stores clock config deviceNames k fileNames world).1 = .panic ↔
      ∃ earlier fileName later counts between, fileNames = earlier ++ fileName :: later ∧
        rounds nebu merkle stores clock config deviceNames k earlier world = (.ok counts, between) ∧
        between.getFile nebu stores fileName = .panic := by
  have codes : ∀ data, encode nebu data k (nextPowerOfTwo deviceNames.length) ≠ none := by
    intro data uncoded
    exact positive.ne' ((encode_next_eq_none_iff total).mp uncoded)
  rw [rounds, rechunkFiles_panic_iff]
  simp only [rounds, rechunkFile_panic_iff, codes, and_false, exists_false, or_false]

/-- Where nothing stored is damaged, a file is read with a panic later on only if
it was before. -/
theorem Advanced.getFile_panic {chunks : Set (List UInt8)} {after : World hemera} {name : String}
    (lawful : nebu.Lawful) (printed : hemera.toHex = hexText) (free : hemera.CollisionFree chunks)
    (sound : world.Sound chunks) (covers : Covers chunks world nebu) (settled : world.Settled nebu)
    (advanced : world.Advanced nebu chunks after)
    (aborted : after.getFile nebu stores name = .panic) :
    world.getFile nebu stores name = .panic := by
  rcases advanced.entries name with same | ⟨entry, data, shards, rewritten⟩
  · cases registered : world.manager.registry.get name with
    | none =>
        rw [registered] at same
        simp [World.getFile, same] at aborted
    | some entry =>
        rw [registered] at same
        rcases settled name entry registered with ⟨stated, shards, codes⟩ | whole
        · have genuine := advanced.sound.genuine printed free
            (covers name entry stated shards registered codes)
          rw [codes.getFile_eq lawful printed genuine same] at aborted
          split_ifs at aborted
        · rwa [whole.noneNew.getFile_eq printed free sound advanced.sound advanced.grows stores stores
            registered same] at aborted
  · rw [rewritten.toRecoded.getFile lawful printed free advanced.sound stores] at aborted
    cases aborted

/-- On a disk with fewer than two devices there is nothing to rewrite. -/
theorem two_of_rechunk_panic {diskName : String}
    (aborted : (rechunk nebu merkle stores files clock diskName world).1 = .panic) :
    ∃ config, world.manager.disks[diskName]? = some config ∧
      2 ≤ (world.manager.deviceNames diskName).length := by
  rcases rechunk_cases nebu merkle stores files clock diskName world with
    ⟨-, reason, run⟩ | ⟨config, disk, ⟨-, run⟩ | ⟨two, -⟩⟩
  · simp [run] at aborted
  · simp [run] at aborted
  · exact ⟨config, disk, two⟩

/-- Of a disk without a device to spare, `rechunk` returns only when it does not
come to a file that it can read. -/
theorem rechunk_panic_iff_of_le {diskName : String}
    (disk : world.manager.disks[diskName]? = some config)
    (two : 2 ≤ (world.manager.deviceNames diskName).length)
    (spent : (world.manager.deviceNames diskName).length ≤
      config.redundancy.failures (world.manager.deviceNames diskName).length) :
    (rechunk nebu merkle stores files clock diskName world).1 = .panic ↔
      (world.manager.deviceNames diskName).length <
          config.redundancy.failures (world.manager.deviceNames diskName).length ∨
        ∃ fileName ∈ world.outdated files 0
            (nextPowerOfTwo (world.manager.deviceNames diskName).length),
          ∀ reason, world.getFile nebu stores fileName ≠ .err reason := by
  rcases rechunk_cases nebu merkle stores files clock diskName world with
    ⟨missing, -⟩ | ⟨found, known, ⟨few, -⟩ | ⟨-, ⟨below, run⟩ | ⟨within, run⟩⟩⟩
  · rw [disk] at missing
    cases missing
  · omega
  · cases disk.symm.trans known
    exact iff_of_true (by rw [run]) (.inl below)
  · cases disk.symm.trans known
    rw [Nat.sub_eq_zero_of_le spent] at run
    rw [run, rounds_zero_panic_iff, or_iff_right (Nat.not_lt.mpr within)]

theorem rechunk_panic_iff_of_lt {diskName : String}
    (disk : world.manager.disks[diskName]? = some config)
    (two : 2 ≤ (world.manager.deviceNames diskName).length)
    (tolerated : config.redundancy.failures (world.manager.deviceNames diskName).length <
      (world.manager.deviceNames diskName).length) :
    (rechunk nebu merkle stores files clock diskName world).1 = .panic ↔
      ∃ earlier fileName later counts between,
        world.outdated files ((world.manager.deviceNames diskName).length -
            config.redundancy.failures (world.manager.deviceNames diskName).length)
          (nextPowerOfTwo (world.manager.deviceNames diskName).length) =
            earlier ++ fileName :: later ∧
        rounds nebu merkle stores clock config (world.manager.deviceNames diskName)
          ((world.manager.deviceNames diskName).length -
            config.redundancy.failures (world.manager.deviceNames diskName).length) earlier world =
              (.ok counts, between) ∧
        between.getFile nebu stores fileName = .panic := by
  rw [rechunk_run disk two tolerated.le]
  exact rounds_panic_iff (Nat.sub_add_cancel tolerated.le).symm (Nat.sub_pos_of_lt tolerated) _

theorem rechunk_ne_panic {diskName : String} (lawful : nebu.Lawful)
    (printed : hemera.toHex = hexText) (disk : world.manager.disks[diskName]? = some config)
    (tolerated : config.redundancy.failures (world.manager.deviceNames diskName).length <
      (world.manager.deviceNames diskName).length)
    (bound : (world.manager.deviceNames diskName).length ≤ 2 ^ 32)
    (secure : world.Secure nebu ((world.manager.deviceNames diskName).length -
        config.redundancy.failures (world.manager.deviceNames diskName).length)
      (nextPowerOfTwo (world.manager.deviceNames diskName).length))
    (readable : ∀ fileName, world.getFile nebu stores fileName ≠ .panic) :
    (rechunk nebu merkle stores files clock diskName world).1 ≠ .panic := by
  intro aborted
  obtain ⟨_, _, two⟩ := two_of_rechunk_panic aborted
  have attached : world.manager.deviceNames diskName ≠ [] :=
    List.length_pos_iff.mp (Nat.zero_lt_of_lt tolerated)
  have ready := secure.ready attached (nextPowerOfTwo_le bound)
  obtain ⟨earlier, fileName, later, counts, between, -, passed, aborted⟩ :=
    (rechunk_panic_iff_of_lt disk two tolerated).mp aborted
  have advanced := rounds_advances lawful printed secure.free ready merkle config stores clock
    earlier world (.refl ready.sound)
  rw [passed] at advanced
  exact readable fileName (Advanced.getFile_panic lawful printed secure.free ready.sound
    ready.covers ready.settled advanced aborted)

end Rechunk

/-- `put_file` returns unless the disk is to survive the loss of all of its
devices.  `rechunk` returns on such a disk only while it has no file to rewrite
and the subtraction does not overflow; on any other disk it returns unless it
comes to a file that is read with a panic, and there is no such file when nothing
stored is damaged. -/
theorem put_and_rechunk_return_iff (nebu : Nebu) (merkle : HemeraTree) (world : World hemera)
    (diskName : String) :
    let devices := (world.manager.deviceNames diskName).length
    (∀ now fileName data, (putFile nebu merkle now diskName fileName data world).1 ≠ .panic ↔
      ∀ config, world.manager.disks[diskName]? = some config → 0 < devices →
        config.redundancy.failures devices < devices) ∧
    (∀ stores files clock, (rechunk nebu merkle stores files clock diskName world).1 ≠ .panic ↔
      ∀ config, world.manager.disks[diskName]? = some config → 2 ≤ devices →
        (config.redundancy.failures devices = devices ∧
          ∀ fileName ∈ world.outdated files 0 (nextPowerOfTwo devices),
            ∃ reason, world.getFile nebu stores fileName = .err reason) ∨
        config.redundancy.failures devices < devices ∧
          ∀ earlier fileName later counts between,
            world.outdated files (devices - config.redundancy.failures devices)
              (nextPowerOfTwo devices) = earlier ++ fileName :: later →
            rounds nebu merkle stores clock config (world.manager.deviceNames diskName)
              (devices - config.redundancy.failures devices) earlier world =
                (.ok counts, between) →
            between.getFile nebu stores fileName ≠ .panic) ∧
    ∀ config, world.manager.disks[diskName]? = some config →
      config.redundancy.failures devices < devices → devices ≤ 2 ^ 32 →
      nebu.Lawful → hemera.toHex = hexText →
      world.Secure nebu (devices - config.redundancy.failures devices) (nextPowerOfTwo devices) →
      ∀ stores files clock, (∀ fileName, world.getFile nebu stores fileName ≠ .panic) →
        (rechunk nebu merkle stores files clock diskName world).1 ≠ .panic := by
  intro devices
  refine ⟨?_, ?_, ?_⟩
  · intro now fileName data
    rw [ne_eq, putFile_panic_iff]
    simp only [not_exists, not_and, not_le]
    rfl
  · intro stores files clock
    constructor
    · intro returned config disk two
      rcases Nat.lt_or_ge (config.redundancy.failures devices) devices with tolerated | spent
      · right
        refine ⟨tolerated, ?_⟩
        intro earlier fileName later counts between split run aborted
        exact returned ((rechunk_panic_iff_of_lt disk two tolerated).mpr
          ⟨earlier, fileName, later, counts, between, split, run, aborted⟩)
      · left
        rw [ne_eq, rechunk_panic_iff_of_le disk two spent] at returned
        simpa [not_or, and_comm, le_antisymm_iff, spent] using returned
    · intro allowed aborted
      obtain ⟨config, disk, two⟩ := two_of_rechunk_panic aborted
      rcases allowed config disk two with ⟨spent, unread⟩ | ⟨tolerated, readable⟩
      · rcases (rechunk_panic_iff_of_le disk two spent.ge).mp aborted with below | ⟨name, member, read⟩
        · exact absurd spent.symm below.ne
        · obtain ⟨reason, failed⟩ := unread name member
          exact read reason failed
      · obtain ⟨earlier, fileName, later, counts, between, split, run, aborted⟩ :=
          (rechunk_panic_iff_of_lt disk two tolerated).mp aborted
        exact readable earlier fileName later counts between split run aborted
  · intro config disk tolerated bound lawful printed secure stores files clock readable
    exact rechunk_ne_panic lawful printed disk tolerated bound secure readable

section OneNote

variable {world : World Hemera.truncating}

theorem OneByte.settled (files : world.OneByte) : world.Settled naiveNebu := by
  intro name entry registered
  obtain ⟨byte, shards, codes⟩ := files name entry registered
  exact .inl ⟨[byte], shards, codes⟩

theorem OneByte.yields (files : world.OneByte) (sound : world.Sound {bytes | bytes.length = 8})
    {name : String} {data : List UInt8} (yields : world.Yields naiveNebu name data) :
    data.length = 1 := by
  obtain ⟨entry, registered, known⟩ := yields
  obtain ⟨byte, shards, codes⟩ := files name entry registered
  rcases known with ⟨others, other⟩ | ⟨-, stores, read⟩
  · rw [← other.length, codes.length, List.length_singleton]
  · have genuine := sound.genuine rfl (Hemera.truncating_collisionFree (by decide))
      fun shard member => length_of_oneByte rfl codes.coded member
    rw [codes.getFile_eq naiveNebu_lawful rfl genuine registered] at read
    split_ifs at read
    cases read
    rfl

theorem OneByte.collisionFree (files : world.OneByte)
    (sound : world.Sound {bytes | bytes.length = 8}) (k n : Nat) :
    Hemera.truncating.CollisionFree (world.chunksAtHand naiveNebu k n) := by
  refine Set.InjOn.mono ?_ (Hemera.truncating_collisionFree (by decide : 8 ≤ 32))
  rintro bytes ((⟨hash, held⟩ | ⟨name, entry, data, shards, registered, codes, shard, member, rfl⟩) |
    ⟨name, data, shards, yields, coded, shard, member, rfl⟩)
  · exact sound.within held
  · obtain ⟨byte, _, known⟩ := files name entry registered
    have single : data.length = 1 := by
      rw [← codes.length, known.length, List.length_singleton]
    exact length_of_oneByte single codes.coded member
  · exact length_of_oneByte (files.yields sound yields) coded member

theorem oneNote_phone_secure : (attach "phone" "work" 0 oneNote).2.Secure naiveNebu 2 2 := by
  have sound := (attach_addressed "phone" "work" 0 oneNote oneNote_addressed).sound
  have files := oneNote_oneByte "phone" "work" 0
  exact ⟨oneNote_phone_ready.1, sound.honest, oneNote_phone_ready.2, files.settled,
    files.collisionFree sound 2 2⟩

end OneNote

theorem OneByte.getFile_ne_panic {world : World Hemera.truncating} (files : world.OneByte)
    (sound : world.Sound {bytes | bytes.length = 8}) (stores : Walk) (name : String) :
    world.getFile naiveNebu stores name ≠ .panic := by
  intro aborted
  cases registered : world.manager.registry.get name with
  | none => simp [World.getFile, registered] at aborted
  | some entry =>
      obtain ⟨byte, shards, codes⟩ := files name entry registered
      have genuine := sound.genuine rfl (Hemera.truncating_collisionFree (by decide))
        fun shard member => length_of_oneByte rfl codes.coded member
      rw [codes.getFile_eq naiveNebu_lawful rfl genuine registered] at aborted
      split_ifs at aborted

theorem put_and_rechunk_return_one_note :
    let world := (attach "phone" "work" 0 oneNote).2
    world.outdated .sorted 2 2 = ["notes"] ∧
      (rechunk naiveNebu .truncating .sorted .sorted (fun _ => 6) "work" world).1 ≠ .panic := by
  intro world
  have sound := (attach_addressed "phone" "work" 0 oneNote oneNote_addressed).sound
  have files := oneNote_oneByte "phone" "work" 0
  obtain ⟨disk, names, outdated, -⟩ := oneNote_outdated world rfl
  have two : (world.manager.deviceNames "work").length = 2 := by rw [names]; rfl
  refine ⟨outdated, ?_⟩
  exact (put_and_rechunk_return_iff naiveNebu .truncating world "work").2.2
    { name := "work", redundancy := .tolerate 0, shardCopies := 1 } disk (two ▸ by decide)
    (two ▸ by decide) naiveNebu_lawful rfl oneNote_phone_secure .sorted .sorted (fun _ => 6)
    (files.getFile_ne_panic sound .sorted)

/-- One device on a disk that is to survive one failure, and two on a disk that is
to survive three. -/
theorem spent_disks_panic :
    let world := bareWorld.run naiveNebu .truncating
      [.createDisk { name := "one", redundancy := .tolerate 1, shardCopies := 1 },
        .attach "laptop" "one" 0,
        .createDisk { name := "three", redundancy := .tolerate 3, shardCopies := 1 },
        .attach "phone" "three" 0, .attach "card" "three" 0]
    start [] "" bareWorld.tree = .ok bareWorld ∧
      (putFile naiveNebu .truncating 5 "one" "notes" [7] world).1 = .panic ∧
      (putFile naiveNebu .truncating 5 "three" "notes" [7] world).1 = .panic ∧
      (rechunk naiveNebu .truncating .sorted .sorted (fun _ => 6) "three" world).1 = .panic := by
  intro world
  refine ⟨rfl, ?_, ?_, by decide +kernel⟩
  · exact (putFile_panic_iff 5 "one" "notes" [7]).mpr
      ⟨{ name := "one", redundancy := .tolerate 1, shardCopies := 1 }, by decide +kernel⟩
  · exact (putFile_panic_iff 5 "three" "notes" [7]).mpr
      ⟨{ name := "three", redundancy := .tolerate 3, shardCopies := 1 }, by decide +kernel⟩

end Foculus.VDisk.World

import Foculus.Data.Action
import Foculus.Data.Checked
import Foculus.Store.Convergence

namespace Foculus.Store

open Data

/-! # The number of live files over a merge

An accepted entry takes a name, takes the place of an older entry, or is
dropped.  The live count falls by one when a tombstone takes the place of a live
entry and rises by one when a live entry takes a name or the place of a
tombstone; nothing else changes it.
-/

namespace FileEntry

/-- `validate` when the clock reads `now`; the limit is computed in 64 bits. -/
def validateAt (hemera : Hemera) (now : UInt64) (entry : FileEntry) :
    Outcome ValidationError Unit :=
  if entry.name.isEmpty then .err .emptyName
  else if entry.shardHashes.isEmpty then .err .noShards
  else if !entry.verifyHash hemera then .err .hashMismatch
  else do
    let limit ← Outcome.expect (fit 64 (now.toNat + maxClockDriftMs))
    if entry.timestamp.toNat > limit then .err .timestampFuture else .ok ()

/-- The entry is checked against the clock, and the limit does not fit. -/
def overruns (hemera : Hemera) (now : UInt64) (entry : FileEntry) : Bool :=
  !entry.name.isEmpty && !entry.shardHashes.isEmpty && entry.verifyHash hemera &&
    decide (2 ^ 64 ≤ now.toNat + maxClockDriftMs)

theorem validateAt_eq (hemera : Hemera) (now : UInt64) (entry : FileEntry) :
    entry.validateAt hemera now = if entry.overruns hemera now then .panic
      else Outcome.ofExcept (entry.validate hemera now.toNat) := by
  rw [validateAt, overruns, validate]
  by_cases fits : now.toNat + maxClockDriftMs < 2 ^ 64
  · have inRange : decide (2 ^ 64 ≤ now.toNat + maxClockDriftMs) = false :=
      decide_eq_false (Nat.not_le.mpr fits)
    rw [fit_eq fits, inRange, Bool.and_false, Outcome.expect_some, Outcome.ok_bind,
      if_neg Bool.false_ne_true]
    split_ifs <;> rfl
  · have late : decide (2 ^ 64 ≤ now.toNat + maxClockDriftMs) = true :=
      decide_eq_true (Nat.not_lt.mp fits)
    rw [fit, if_neg fits, late, Outcome.expect_none, Outcome.panic_bind]
    by_cases unnamed : entry.name.isEmpty
    · simp [unnamed, Outcome.ofExcept]
    · by_cases shardless : entry.shardHashes.isEmpty
      · simp [unnamed, shardless, Outcome.ofExcept]
      · cases verified : entry.verifyHash hemera <;>
          simp [unnamed, shardless, Outcome.ofExcept]

theorem validateAt_ok {hemera : Hemera} {now : UInt64} {entry : FileEntry}
    (named : entry.name.isEmpty = false) (sharded : entry.shardHashes.isEmpty = false)
    (verified : entry.verifyHash hemera = true) (fits : now.toNat + maxClockDriftMs < 2 ^ 64)
    (early : entry.timestamp.toNat ≤ now.toNat + maxClockDriftMs) :
    entry.validateAt hemera now = .ok () := by
  rw [validateAt, named, sharded, verified, fit_eq fits, Outcome.expect_some, Outcome.ok_bind,
    if_neg (not_lt.mpr early)]
  rfl

end FileEntry

namespace GSet

variable {hemera : Hemera} {now : UInt64} {entry : FileEntry} {registry after : GSet}

def validatedInsertAt (hemera : Hemera) (now : UInt64) (registry : GSet) (entry : FileEntry) :
    Outcome ValidationError GSet := do
  entry.validateAt hemera now
  if registry.files.size ≥ maxRegistryEntries && !registry.files.contains entry.name then
    .err .registryFull
  else .ok (registry.lwwInsert entry)

/-- `validated_merge` over entries, each with the clock reading at its turn. -/
def validatedMergeAt (hemera : Hemera) :
    List (FileEntry × UInt64) → Nat × Nat → Action GSet String (Nat × Nat)
  | [], counts => pure counts
  | (entry, now) :: rest, (accepted, rejected) => fun registry =>
      match registry.validatedInsertAt hemera now entry with
      | .ok next => validatedMergeAt hemera rest (accepted + 1, rejected) next
      | .err _ => validatedMergeAt hemera rest (accepted, rejected + 1) registry
      | .panic => (.panic, registry)

/-- Where the limit fits this is `validated_insert`. -/
theorem validatedInsertAt_eq (hemera : Hemera) (now : UInt64) (registry : GSet)
    (entry : FileEntry) :
    registry.validatedInsertAt hemera now entry = if entry.overruns hemera now then .panic
      else Outcome.ofExcept (registry.validatedInsert hemera now.toNat entry) := by
  rw [validatedInsertAt, validatedInsert, FileEntry.validateAt_eq]
  split_ifs
  · rfl
  · rfl
  · cases entry.validate hemera now.toNat <;> rfl
  · cases entry.validate hemera now.toNat <;> rfl

theorem validatedInsertAt_panic_iff :
    registry.validatedInsertAt hemera now entry = .panic ↔ entry.overruns hemera now = true := by
  rw [validatedInsertAt_eq]
  split_ifs with late
  · simp [late]
  · cases registry.validatedInsert hemera now.toNat entry <;> simp [late, Outcome.ofExcept]

theorem validatedInsertAt_ok (inserted : registry.validatedInsertAt hemera now entry = .ok after) :
    after = registry.lwwInsert entry := by
  rw [validatedInsertAt] at inserted
  cases checked : entry.validateAt hemera now with
  | ok _ =>
      rw [checked, Outcome.ok_bind] at inserted
      split_ifs at inserted
      exact (Outcome.ok.inj inserted).symm
  | err error => simp [checked] at inserted
  | panic => simp [checked] at inserted

/-- The merge aborts exactly when one of its validations does. -/
theorem validatedMergeAt_panic_iff {readings : List (FileEntry × UInt64)} {counts : Nat × Nat} :
    (validatedMergeAt hemera readings counts registry).1 = .panic ↔
      ∃ pair ∈ readings, pair.1.overruns hemera pair.2 = true := by
  induction readings generalizing registry counts with
  | nil => simp [validatedMergeAt]
  | cons pair rest ih =>
      have here : registry.validatedInsertAt hemera pair.2 pair.1 = .panic ↔
        pair.1.overruns hemera pair.2 = true := validatedInsertAt_panic_iff
      simp only [validatedMergeAt, List.exists_mem_cons_iff, ← here]
      cases registry.validatedInsertAt hemera pair.2 pair.1 with
      | ok next => simp [ih]
      | err error => simp [ih]
      | panic => simp

theorem validatedMergeAt_ne_err {readings : List (FileEntry × UInt64)} {counts : Nat × Nat}
    {error : String} : (validatedMergeAt hemera readings counts registry).1 ≠ .err error := by
  induction readings generalizing registry counts with
  | nil => simp [validatedMergeAt]
  | cons pair rest ih =>
      simp only [validatedMergeAt]
      cases registry.validatedInsertAt hemera pair.2 pair.1 with
      | ok next => exact ih
      | err error => exact ih
      | panic => simp

/-- A tombstone that takes the place of a live entry. -/
def buries (registry : GSet) (entry : FileEntry) : Bool :=
  entry.deleted && (registry.getRaw entry.name).any fun held =>
    !held.deleted && decide (held.stamp < entry.stamp)

/-- A live entry that takes a name or the place of a tombstone. -/
def revives (registry : GSet) (entry : FileEntry) : Bool :=
  !entry.deleted && (registry.getRaw entry.name).all fun held =>
    held.deleted && decide (held.stamp < entry.stamp)

section Count

variable {name : String}

/-- The entries that are held under other names. -/
def others (registry : GSet) (name : String) : List (String × FileEntry) :=
  registry.files.toList.filter (·.1 ≠ name)

theorem mem_others {pair : String × FileEntry} :
    pair ∈ registry.others name ↔ registry.files[pair.1]? = some pair.2 ∧ pair.1 ≠ name := by
  rw [others, List.mem_filter, decide_eq_true_iff, Std.ExtTreeMap.mem_toList_iff_getElem?_eq_some]

theorem nodup_toList (registry : GSet) : registry.files.toList.Nodup := by
  refine registry.files.distinct_keys_toList.imp fun distinct same => distinct ?_
  rw [same]
  exact Std.ReflCmp.compare_self

/-- A registry is what it holds under a name together with the others. -/
theorem toList_perm (registry : GSet) (name : String) : registry.files.toList.Perm
    ((registry.files[name]?).toList.map (name, ·) ++ registry.others name) := by
  rw [List.perm_ext_iff_of_nodup registry.nodup_toList]
  · rintro ⟨other, entry⟩
    rw [List.mem_append, mem_others, Std.ExtTreeMap.mem_toList_iff_getElem?_eq_some]
    by_cases here : other = name
    · subst here
      simp
    · simp [here, Ne.symm here]
  · refine List.Nodup.append ?_ (registry.nodup_toList.filter _) ?_
    · cases registry.files[name]? <;> simp
    · intro pair own other
      obtain ⟨entry, -, rfl⟩ := List.mem_map.mp own
      exact (mem_others.mp other).2 rfl

theorem others_insert_perm (registry : GSet) (name : String) (entry : FileEntry) :
    (others { files := registry.files.insert name entry } name).Perm (registry.others name) := by
  refine (List.perm_ext_iff_of_nodup ((nodup_toList _).filter _)
    (registry.nodup_toList.filter _)).mpr ?_
  rintro ⟨other, held⟩
  rw [← others, ← others, mem_others, mem_others]
  refine and_congr_left fun elsewhere => ?_
  simp only
  rw [Std.ExtTreeMap.getElem?_insert, if_neg]
  exact fun same => elsewhere (Std.LawfulEqCmp.eq_of_compare same).symm

theorem len_eq (registry : GSet) (name : String) :
    registry.len = (registry.files[name]?).toList.countP (!·.deleted) +
      (registry.others name).countP (!·.2.deleted) := by
  have listed := (registry.toList_perm name).map Prod.snd
  rw [len, values, ← List.countP_eq_length_filter, listed.countP_eq, List.map_append,
    List.countP_append, List.map_map, List.countP_map, List.countP_map]
  rfl

theorem len_insert (registry : GSet) (name : String) (entry : FileEntry) :
    len { files := registry.files.insert name entry } +
        (registry.files[name]?).toList.countP (!·.deleted) =
      registry.len + [entry].countP (!·.deleted) := by
  rw [len_eq { files := registry.files.insert name entry } name, len_eq registry name,
    Std.ExtTreeMap.getElem?_insert_self, (others_insert_perm registry name entry).countP_eq,
    Option.toList_some]
  omega

/-- Last writer wins: a tombstone that wins over a live entry takes one away, a live
entry that wins a name where nothing lived adds one. -/
theorem lwwInsert_len (registry : GSet) (entry : FileEntry) :
    (registry.lwwInsert entry).len + (registry.buries entry).toNat =
      registry.len + (registry.revives entry).toNat := by
  have inserted := registry.len_insert entry.name entry
  rw [lwwInsert, buries, revives, getRaw]
  cases held : registry.files[entry.name]? with
  | none =>
      rw [held] at inserted
      cases gone : entry.deleted <;> simp_all
  | some existing =>
      rw [held] at inserted
      simp only [← stamp_lt_iff existing entry]
      split_ifs with newer
      · cases gone : entry.deleted <;> cases before : existing.deleted <;> simp_all
      · simp [newer]

end Count

/-- How many of the accepted entries do the given to the registry at their turn. -/
def tally (hemera : Hemera) (does : GSet → FileEntry → Bool) :
    GSet → List (FileEntry × UInt64) → Nat
  | _, [] => 0
  | registry, (entry, now) :: rest =>
      match registry.validatedInsertAt hemera now entry with
      | .ok next => (does registry entry).toNat + tally hemera does next rest
      | _ => tally hemera does registry rest

/-- Over a whole merge the live count falls by the entries that are buried and rises by
those that are added or revived. -/
theorem validatedMergeAt_len {readings : List (FileEntry × UInt64)} {counts result : Nat × Nat}
    (merged : validatedMergeAt hemera readings counts registry = (.ok result, after)) :
    after.len + tally hemera buries registry readings =
      registry.len + tally hemera revives registry readings := by
  induction readings generalizing registry counts with
  | nil =>
      cases merged
      rfl
  | cons pair rest ih =>
      simp only [validatedMergeAt] at merged
      simp only [tally]
      cases inserted : registry.validatedInsertAt hemera pair.2 pair.1 with
      | ok next =>
          rw [inserted] at merged
          have later := ih merged
          have here := registry.lwwInsert_len pair.1
          rw [← validatedInsertAt_ok inserted] at here
          simp only
          omega
      | err error =>
          rw [inserted] at merged
          exact ih merged
      | panic =>
          rw [inserted] at merged
          cases merged

end GSet

end Foculus.Store

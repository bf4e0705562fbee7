import Foculus.Data.Saturating
import Foculus.Data.Tombstones
import Foculus.Store.MergeOrder

namespace Foculus.Store

open Data

/-! # Dropping tombstones and sending differences (`compact` and `delta_since` of `GSet`) -/

namespace GSet

/-- `compact` drops the entry at clock reading `now`. -/
def outdated (now maxAgeMs : UInt64) (entry : FileEntry) : Bool :=
  entry.deleted && decide (satSub now entry.timestamp > maxAgeMs)

/-- The registry after `compact`, and how many entries are gone. -/
def compact (now maxAgeMs : UInt64) (registry : GSet) : GSet × Nat :=
  let kept : GSet := { files := registry.files.filter fun _ entry => !outdated now maxAgeMs entry }
  (kept, registry.files.size - kept.files.size)

/-- `delta_since` when the walk over the entries yields `order`. -/
def deltaSince (since : UInt64) (order : List FileEntry) : GSet :=
  order.foldl (fun delta entry => if entry.timestamp > since then delta.insert entry else delta) new

def tombstoneCount (registry : GSet) : Nat := (registry.values.filter (·.deleted)).length

section Slots

variable {registry source : GSet} {order : List FileEntry} {name : String} {entry : FileEntry}

theorem compact_getRaw (now maxAgeMs : UInt64) (registry : GSet) (name : String) :
    (compact now maxAgeMs registry).1.getRaw name =
      (registry.getRaw name).filter (!outdated now maxAgeMs ·) := by
  rw [compact, getRaw, Std.ExtTreeMap.getElem?_filter']
  rfl

theorem compact_keyed (keyed : registry.Keyed) (now maxAgeMs : UInt64) :
    (compact now maxAgeMs registry).1.Keyed := by
  intro name entry found
  have held : (compact now maxAgeMs registry).1.getRaw name = some entry := found
  rw [compact_getRaw] at held
  exact keyed name entry (Option.filter_eq_some_iff.mp held).1

/-- What a walk over entries of different names makes of one name. -/
theorem merge_getRaw {offered : Option FileEntry}
    (offers : ∀ entry, offered = some entry ↔ entry ∈ order ∧ entry.name = name) :
    (registry.merge order).getRaw name = lww FileEntry.stamp (registry.getRaw name) offered := by
  cases offered with
  | none =>
      rw [lww_none]
      rcases registry.merge_held order name with same | ⟨winner, member, here, -, -⟩
      · exact same
      · cases (offers winner).mpr ⟨member, here⟩
  | some entry =>
      obtain ⟨member, here⟩ := (offers entry).mp rfl
      rcases registry.merge_held order name with same | ⟨winner, among, named, newer, held⟩
      · have above := registry.stamp_le_merge_rank member
        rw [here, rank_congr same] at above
        rw [getRaw, same, getRaw]
        cases found : registry.files[name]? with
        | none =>
            rw [rank_of_absent found] at above
            exact absurd above (WithBot.not_coe_le_bot _)
        | some existing =>
            rw [rank_of_getElem? found] at above
            exact (lww_older _ (WithBot.coe_le_coe.mp above)).symm
      · cases (offers winner).mpr ⟨among, named⟩
        rw [getRaw, held, getRaw]
        cases found : registry.files[name]? with
        | none => exact (none_lww _ _).symm
        | some existing =>
            rw [rank_of_getElem? found] at newer
            exact (lww_newer _ (WithBot.coe_lt_coe.mp newer)).symm

theorem getRaw_eq_some_iff (keyed : source.Keyed) :
    source.getRaw name = some entry ↔ entry ∈ source.values ∧ entry.name = name := by
  constructor
  · exact fun found => ⟨mem_values.mpr ⟨name, found⟩, keyed name entry found⟩
  · rintro ⟨member, here⟩
    obtain ⟨key, found⟩ := mem_values.mp member
    have same := keyed key entry found
    rw [here] at same
    rwa [same]

theorem merge_getRaw_of_iterates (keyed : source.Keyed) (iterates : source.Iterates order) :
    (registry.merge order).getRaw name =
      lww FileEntry.stamp (registry.getRaw name) (source.getRaw name) := by
  refine merge_getRaw fun entry => ?_
  rw [getRaw_eq_some_iff keyed, iterates.mem_iff]

theorem insert_getRaw (registry : GSet) (entry : FileEntry) (name : String) :
    (registry.insert entry).getRaw name =
      lww FileEntry.stamp (registry.getRaw name) (if entry.name = name then some entry else none) := by
  have single : registry.insert entry = registry.merge [entry] := rfl
  rw [single]
  refine merge_getRaw fun other => ?_
  rw [List.mem_singleton]
  split_ifs with here
  · rw [Option.some.injEq]
    constructor
    · rintro rfl
      exact ⟨rfl, here⟩
    · rintro ⟨rfl, -⟩
      rfl
  · refine iff_of_false (by simp) ?_
    rintro ⟨rfl, same⟩
    exact here same

theorem deltaSince_eq (since : UInt64) (order : List FileEntry) :
    deltaSince since order = new.merge (order.filter fun entry => entry.timestamp > since) := by
  have walk (delta : GSet) : order.foldl
      (fun delta entry => if entry.timestamp > since then delta.insert entry else delta) delta =
        delta.merge (order.filter fun entry => entry.timestamp > since) := by
    induction order generalizing delta with
    | nil => rfl
    | cons entry rest ih =>
        rw [List.foldl_cons, ih, List.filter_cons]
        by_cases newer : entry.timestamp > since
        · rw [if_pos newer, if_pos (decide_eq_true newer), merge_cons]
          rfl
        · rw [if_neg newer, if_neg (by simpa using newer)]
  exact walk new

theorem deltaSince_keyed (since : UInt64) (order : List FileEntry) :
    (deltaSince since order).Keyed := by
  rw [deltaSince_eq]
  exact merge_keyed new_keyed _

theorem new_getRaw (name : String) : new.getRaw name = none := by
  simp [new, getRaw]

theorem deltaSince_getRaw (keyed : source.Keyed) (iterates : source.Iterates order)
    (since : UInt64) (name : String) : (deltaSince since order).getRaw name =
      (source.getRaw name).filter fun entry => entry.timestamp > since := by
  have offered : (new.merge (order.filter fun entry => entry.timestamp > since)).getRaw name =
      lww FileEntry.stamp (new.getRaw name)
        ((source.getRaw name).filter fun entry => entry.timestamp > since) := by
    refine merge_getRaw fun entry => ?_
    rw [Option.filter_eq_some_iff, getRaw_eq_some_iff keyed, List.mem_filter, iterates.mem_iff]
    exact and_right_comm
  rw [deltaSince_eq, offered, new_getRaw, none_lww]

end Slots

/-- Merging what is newer than some time comes to the same as merging the whole registry
exactly if every older entry of it is no news. -/
theorem delta_suffices_iff (self other : GSet) (keyed : other.Keyed) (since : UInt64)
    (walk whole part : List FileEntry) (walks : other.Iterates walk)
    (wholeWalks : other.Iterates whole) (partWalks : (deltaSince since walk).Iterates part) :
    self.merge part = self.merge whole ↔ ∀ entry ∈ other.values, entry.timestamp ≤ since →
      (entry.stamp : WithBot Stamp) ≤ self.rank entry.name := by
  have slots (name : String) : (self.merge part).getRaw name = lww FileEntry.stamp (self.getRaw name)
      ((other.getRaw name).filter fun entry => entry.timestamp > since) := by
    rw [merge_getRaw_of_iterates (deltaSince_keyed since walk) partWalks,
      deltaSince_getRaw keyed walks]
  have wholes (name : String) : (self.merge whole).getRaw name =
      lww FileEntry.stamp (self.getRaw name) (other.getRaw name) :=
    merge_getRaw_of_iterates keyed wholeWalks
  constructor
  · intro same entry member early
    obtain ⟨name, found⟩ := mem_values.mp member
    have named := keyed name entry found
    have slot := slots name
    have held : other.getRaw name = some entry := found
    have filtered : (some entry).filter (fun entry => decide (entry.timestamp > since)) = none := by
      simpa using early
    rw [same, wholes, held, filtered, lww_none] at slot
    rw [named]
    cases mine : self.getRaw name with
    | none =>
        rw [mine, none_lww] at slot
        cases slot
    | some existing =>
        rw [rank_of_getElem? mine, WithBot.coe_le_coe]
        by_contra newer
        rw [mine, lww_newer _ (not_le.mp newer)] at slot
        cases slot
        exact newer le_rfl
  · intro known
    refine eq_of_getElem? fun name => ?_
    change (self.merge part).getRaw name = (self.merge whole).getRaw name
    rw [slots, wholes]
    cases held : other.getRaw name with
    | none => rfl
    | some entry =>
        by_cases late : entry.timestamp > since
        · rw [Option.filter_some, if_pos (decide_eq_true late)]
        · obtain ⟨member, named⟩ := (getRaw_eq_some_iff keyed).mp held
          have below := known entry member (UInt64.not_lt.mp late)
          rw [Option.filter_some, if_neg (by simpa using late), lww_none]
          rw [named] at below
          cases mine : self.getRaw name with
          | none =>
              rw [rank_of_absent mine] at below
              exact absurd below (WithBot.not_coe_le_bot _)
          | some existing =>
              rw [rank_of_getElem? mine] at below
              exact (lww_older _ (WithBot.coe_le_coe.mp below)).symm

def dated (name : String) (timestamp : UInt64) (deleted : Bool) : FileEntry where
  name := name
  originalLen := 3
  k := 1
  n := 2
  shardHashes := ["aa"]
  timestamp := timestamp
  entryHash := "x"
  deviceId := "device"
  dasRoot := "cc"
  shardCopies := 1
  deleted := deleted

/-- What is newer than time 3, for a device that knows the rest already. -/
theorem delta_suffices_iff_known :
    let self := new.insert (dated "notes" 3 false)
    let other := (new.insert (dated "notes" 2 false)).insert (dated "todo" 5 false)
    self.merge (deltaSince 3 other.values).values = self.merge other.values := by
  intro self other
  refine (delta_suffices_iff self other ?_ 3 _ _ _ (.refl _) (.refl _) (.refl _)).mpr ?_
  · exact lwwInsert_keyed (lwwInsert_keyed new_keyed _) _
  · decide +kernel

end GSet

end Foculus.Store

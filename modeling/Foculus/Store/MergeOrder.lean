import Foculus.Store.Convergence
import Foculus.Store.EntryHash
import Mathlib.Data.Finset.Card
import Mathlib.Data.Finset.Dedup

namespace Foculus.Store

/-! # When the order of a validated merge does not matter

An entry is refused when it is invalid, or when the registry is full and its name
is new to it.  An accepted entry is held if its stamp is larger than the one that
is held.  So the order of the walk shows when only some of the new names get in,
and when two entries of one name have the same stamp. -/

namespace GSet

theorem lwwInsert_getElem? (registry : GSet) (entry : FileEntry) (name : String) :
    (registry.lwwInsert entry).files[name]? =
      if entry.name = name ∧ registry.rank name < (entry.stamp : WithBot Stamp) then some entry
      else registry.files[name]? := by
  rw [lwwInsert]
  cases found : registry.files[entry.name]? with
  | none =>
      rw [insert_spec]
      by_cases here : entry.name = name
      · subst here
        rw [if_pos rfl, if_pos ⟨rfl, by rw [rank_of_absent found]; exact WithBot.bot_lt_coe _⟩]
      · rw [if_neg here, if_neg fun both => here both.1]
  | some existing =>
      simp only [← stamp_lt_iff existing entry]
      by_cases here : entry.name = name
      · subst here
        have newer : registry.rank entry.name < (entry.stamp : WithBot Stamp) ↔
            existing.stamp < entry.stamp := by
          rw [rank_of_getElem? found, WithBot.coe_lt_coe]
        simp only [newer, true_and]
        split_ifs
        · rw [insert_spec, if_pos rfl]
        · rfl
      · rw [if_neg (c := entry.name = name ∧ _) fun both => here both.1]
        split_ifs
        · rw [insert_spec, if_neg here]
        · rfl

/-- Every name is held as before, or by an entry of that name with a larger stamp. -/
def Evolves (earlier later : GSet) : Prop :=
  ∀ name : String, later.files[name]? = earlier.files[name]? ∨
    ∃ entry, later.files[name]? = some entry ∧ entry.name = name ∧
      earlier.rank name < (entry.stamp : WithBot Stamp)

theorem rank_congr {left right : GSet} {name : String}
    (same : left.files[name]? = right.files[name]?) : left.rank name = right.rank name := by
  rw [rank, same, rank]

theorem eq_of_getElem? {left right : GSet}
    (same : ∀ name : String, left.files[name]? = right.files[name]?) : left = right := by
  obtain ⟨leftFiles⟩ := left
  obtain ⟨rightFiles⟩ := right
  congr 1
  exact Std.ExtTreeMap.ext_getElem? same

theorem Evolves.refl (registry : GSet) : registry.Evolves registry := fun _ => .inl rfl

theorem Evolves.rank_le {earlier later : GSet} (evolves : earlier.Evolves later) (name : String) :
    earlier.rank name ≤ later.rank name := by
  rcases evolves name with same | ⟨entry, held, -, newer⟩
  · rw [rank_congr same]
  · rw [rank_of_getElem? held]
    exact newer.le

theorem Evolves.trans {first second third : GSet} (early : first.Evolves second)
    (late : second.Evolves third) : first.Evolves third := by
  intro name
  rcases late name with still | ⟨entry, held, here, newer⟩
  · rw [still]
    exact early name
  · exact .inr ⟨entry, held, here, (early.rank_le name).trans_lt newer⟩

theorem Evolves.antisymm {left right : GSet} (there : left.Evolves right)
    (back : right.Evolves left) : left = right := by
  apply eq_of_getElem?
  intro name
  rcases there name with same | ⟨entry, held, -, newer⟩
  · exact same.symm
  · rw [← rank_of_getElem? held] at newer
    exact absurd (back.rank_le name) (not_le.mpr newer)

theorem lwwInsert_evolves (registry : GSet) (entry : FileEntry) :
    registry.Evolves (registry.lwwInsert entry) := by
  intro name
  rw [lwwInsert_getElem?]
  split_ifs with taken
  · exact .inr ⟨entry, rfl, taken⟩
  · exact .inl rfl

theorem merge_cons (registry : GSet) (entry : FileEntry) (rest : List FileEntry) :
    registry.merge (entry :: rest) = (registry.lwwInsert entry).merge rest := rfl

/-- What a merge changes under a name comes from an entry of the walk. -/
theorem merge_held (registry : GSet) (order : List FileEntry) (name : String) :
    (registry.merge order).files[name]? = registry.files[name]? ∨
      ∃ entry ∈ order, entry.name = name ∧ registry.rank name < (entry.stamp : WithBot Stamp) ∧
        (registry.merge order).files[name]? = some entry := by
  induction order generalizing registry with
  | nil => exact .inl rfl
  | cons entry rest ih =>
      rw [merge_cons]
      rcases ih (registry.lwwInsert entry) with same | ⟨winner, member, here, newer, held⟩
      · rw [same, lwwInsert_getElem?]
        split_ifs with taken
        · exact .inr ⟨entry, .head _, taken.1, taken.2, rfl⟩
        · exact .inl rfl
      · have below := (lwwInsert_evolves registry entry).rank_le name
        exact .inr ⟨winner, .tail _ member, here, below.trans_lt newer, held⟩

theorem merge_evolves (registry : GSet) (order : List FileEntry) :
    registry.Evolves (registry.merge order) := by
  intro name
  rcases registry.merge_held order name with same | ⟨entry, -, here, newer, held⟩
  · exact .inl same
  · exact .inr ⟨entry, held, here, newer⟩

theorem stamp_le_merge_rank (registry : GSet) {order : List FileEntry} {entry : FileEntry}
    (member : entry ∈ order) :
    (entry.stamp : WithBot Stamp) ≤ (registry.merge order).rank entry.name := by
  induction order generalizing registry with
  | nil => cases member
  | cons head rest ih =>
      rw [merge_cons]
      cases member with
      | head =>
          refine le_trans ?_ ((merge_evolves _ rest).rank_le entry.name)
          rw [lwwInsert_rank, if_pos rfl]
          exact le_sup_right
      | tail _ later => exact ih _ later

theorem merge_rank_perm (registry : GSet) {first second : List FileEntry}
    (perm : first.Perm second) (name : String) :
    (registry.merge first).rank name = (registry.merge second).rank name := by
  rw [merge_rank, merge_rank]
  congr 1
  have commutes : LeftCommutative
      fun (entry : FileEntry) (rest : WithBot Stamp) => (entry.stamp : WithBot Stamp) ⊔ rest :=
    ⟨fun _ _ _ => sup_left_comm _ _ _⟩
  exact (perm.filter _).foldr_eq ⊥

/-- The order of a merge does not matter when the largest stamp of a name is the stamp of
one entry. -/
theorem merge_perm (registry : GSet) {first second : List FileEntry} (perm : first.Perm second)
    (apart : ∀ left ∈ first, ∀ right ∈ first, left.name = right.name → left.stamp = right.stamp →
      registry.rank left.name < (left.stamp : WithBot Stamp) →
      (∀ entry ∈ first, entry.name = left.name → entry.stamp ≤ left.stamp) → left = right) :
    registry.merge first = registry.merge second := by
  apply eq_of_getElem?
  intro name
  have level := merge_rank_perm registry perm name
  rcases registry.merge_held first name with same | ⟨left, leftIn, leftHere, leftNewer, leftHeld⟩
  · rcases registry.merge_held second name with still | ⟨right, _, _, newer, held⟩
    · exact same.trans still.symm
    · rw [rank_congr same, rank_of_getElem? held] at level
      exact absurd level newer.ne
  · rw [rank_of_getElem? leftHeld] at level
    rcases registry.merge_held second name with still | ⟨right, rightIn, rightHere, _, rightHeld⟩
    · rw [rank_congr still] at level
      exact absurd level leftNewer.ne'
    · rw [rank_of_getElem? rightHeld, WithBot.coe_inj] at level
      rw [leftHeld, rightHeld]
      subst leftHere
      refine congrArg some (apart left leftIn right (perm.mem_iff.mpr rightIn) rightHere.symm level
        leftNewer ?_)
      intro entry member here
      have below := stamp_le_merge_rank registry member
      rwa [here, rank_of_getElem? leftHeld, WithBot.coe_le_coe] at below

section Admission

variable {hemera : Hemera} {now : Nat} {registry remote : GSet} {entry : FileEntry}
  {order rest : List FileEntry} {name : String}

def names (registry : GSet) : Finset String := registry.files.keys.toFinset

@[simp]
theorem mem_names : name ∈ registry.names ↔ registry.files.contains name = true := by
  rw [names, List.mem_toFinset, Std.ExtTreeMap.mem_keys, Std.ExtTreeMap.mem_iff_contains]

theorem card_names (registry : GSet) : registry.names.card = registry.files.size := by
  rw [names, List.toFinset_card_of_nodup registry.files.nodup_keys, Std.ExtTreeMap.length_keys]

theorem contains_iff : registry.files.contains name = true ↔ registry.rank name ≠ ⊥ := by
  rw [Std.ExtTreeMap.contains_eq_isSome_getElem?, rank]
  cases registry.files[name]? with
  | none => exact iff_of_false (by simp) fun present => present rfl
  | some held => exact iff_of_true rfl WithBot.coe_ne_bot

theorem names_lwwInsert (registry : GSet) (entry : FileEntry) :
    (registry.lwwInsert entry).names = Insert.insert entry.name registry.names := by
  ext name
  rw [Finset.mem_insert, mem_names, mem_names, contains_iff, contains_iff, lwwInsert_rank]
  split_ifs with here
  · simp [here]
  · simp [Ne.symm here]

/-- `validated_insert` lets the entry in. -/
def admits (hemera : Hemera) (now : Nat) (registry : GSet) (entry : FileEntry) : Bool :=
  (entry.validate hemera now).isOk &&
    (decide (registry.files.size < maxRegistryEntries) || registry.files.contains entry.name)

theorem validatedInsert_of_admits (admitted : registry.admits hemera now entry = true) :
    registry.validatedInsert hemera now entry = .ok (registry.lwwInsert entry) := by
  rw [admits, Bool.and_eq_true, Bool.or_eq_true, decide_eq_true_eq] at admitted
  rw [validatedInsert]
  cases checked : entry.validate hemera now with
  | error error =>
      rw [checked] at admitted
      cases admitted.1
  | ok _ =>
      change (if _ then _ else _) = _
      rw [if_neg]
      rw [Bool.and_eq_true, decide_eq_true_eq, not_and_or, not_le]
      exact admitted.2.imp id fun held => by rw [held]; decide

theorem validatedInsert_of_refused (refused : registry.admits hemera now entry = false) :
    ∃ error, registry.validatedInsert hemera now entry = .error error := by
  rw [validatedInsert]
  cases checked : entry.validate hemera now with
  | error error => exact ⟨error, rfl⟩
  | ok _ =>
      refine ⟨.registryFull, ?_⟩
      rw [admits, checked] at refused
      change (if _ then _ else _) = _
      rw [if_pos]
      simpa [Except.isOk, Except.toBool] using refused

theorem validatedMerge_cons_of_admits (admitted : registry.admits hemera now entry = true) :
    validatedMerge hemera now registry (entry :: rest) =
      ((validatedMerge hemera now (registry.lwwInsert entry) rest).1,
        (validatedMerge hemera now (registry.lwwInsert entry) rest).2.1 + 1,
        (validatedMerge hemera now (registry.lwwInsert entry) rest).2.2) := by
  rw [validatedMerge_eq, List.foldl_cons, mergeStep_ok (validatedInsert_of_admits admitted),
    foldl_mergeStep]
  simp only [Nat.zero_add, Nat.add_comm 1]

theorem validatedMerge_cons_of_refused (refused : registry.admits hemera now entry = false) :
    validatedMerge hemera now registry (entry :: rest) =
      ((validatedMerge hemera now registry rest).1,
        (validatedMerge hemera now registry rest).2.1,
        (validatedMerge hemera now registry rest).2.2 + 1) := by
  obtain ⟨error, turnedAway⟩ := validatedInsert_of_refused refused
  rw [validatedMerge_eq, List.foldl_cons, mergeStep_error turnedAway, foldl_mergeStep]
  simp only [Nat.zero_add, Nat.add_comm 1]

/-- While the answer to each entry does not change, the walk merges the entries that
are let in. -/
theorem validatedMerge_eq_merge (accepts : FileEntry → Bool) (keeps : GSet → Prop)
    (starts : keeps registry)
    (answers : ∀ current, keeps current → ∀ entry ∈ order,
      current.admits hemera now entry = accepts entry)
    (kept : ∀ current, keeps current → ∀ entry ∈ order, accepts entry = true →
      keeps (current.lwwInsert entry)) :
    validatedMerge hemera now registry order =
      (registry.merge (order.filter accepts), order.countP accepts,
        order.countP fun entry => !accepts entry) := by
  induction order generalizing registry with
  | nil => rfl
  | cons entry rest ih =>
      have later := fun (next : GSet) (started : keeps next) => ih started
        (fun current held other member => answers current held other (.tail _ member))
        (fun current held other member => kept current held other (.tail _ member))
      have here := answers registry starts entry (.head _)
      cases accepted : accepts entry with
      | true =>
          rw [validatedMerge_cons_of_admits (here.trans accepted),
            later _ (kept registry starts entry (.head _) accepted),
            List.filter_cons_of_pos accepted, List.countP_cons_of_pos accepted,
            List.countP_cons_of_neg (by simp [accepted])]
          rfl
      | false =>
          rw [validatedMerge_cons_of_refused (here.trans accepted), later _ starts,
            List.filter_cons_of_neg (by simp [accepted]),
            List.countP_cons_of_neg (by simp [accepted]), List.countP_cons_of_pos (by simp [accepted])]

theorem validatedMerge_keeps (keeps : GSet → Prop) (starts : keeps registry)
    (kept : ∀ current, keeps current → ∀ entry ∈ order,
      current.admits hemera now entry = true → keeps (current.lwwInsert entry)) :
    keeps (validatedMerge hemera now registry order).1 := by
  induction order generalizing registry with
  | nil => exact starts
  | cons entry rest ih =>
      have later := fun (next : GSet) (started : keeps next) => ih started
        fun current held other member => kept current held other (.tail _ member)
      cases admitted : registry.admits hemera now entry with
      | true =>
          rw [validatedMerge_cons_of_admits admitted]
          exact later _ (kept registry starts entry (.head _) admitted)
      | false =>
          rw [validatedMerge_cons_of_refused admitted]
          exact later _ starts

theorem validatedMerge_append (front back : List FileEntry) :
    (validatedMerge hemera now registry (front ++ back)).1 =
      (validatedMerge hemera now (validatedMerge hemera now registry front).1 back).1 := by
  rw [validatedMerge_eq, List.foldl_append, ← validatedMerge_eq]
  obtain ⟨current, accepted, rejected⟩ := validatedMerge hemera now registry front
  rw [foldl_mergeStep]

/-- The names of the entries that pass `validate`. -/
def offered (hemera : Hemera) (now : Nat) (order : List FileEntry) : Finset String :=
  ((order.filter fun entry => (entry.validate hemera now).isOk).map FileEntry.name).toFinset

theorem mem_offered : name ∈ offered hemera now order ↔
    ∃ entry ∈ order, (entry.validate hemera now).isOk = true ∧ entry.name = name := by
  simp only [offered, List.mem_toFinset, List.mem_map, List.mem_filter, and_assoc]

theorem offered_perm {first second : List FileEntry} (perm : first.Perm second) :
    offered hemera now first = offered hemera now second :=
  List.toFinset_eq_of_perm _ _ ((perm.filter _).map _)

theorem valid_of_admits (admitted : registry.admits hemera now entry = true) :
    (entry.validate hemera now).isOk = true := (Bool.and_eq_true _ _ ▸ admitted).1

theorem admits_of_valid (valid : (entry.validate hemera now).isOk = true)
    (room : registry.files.size < maxRegistryEntries ∨ entry.name ∈ registry.names) :
    registry.admits hemera now entry = true := by
  rw [admits, valid, Bool.true_and, Bool.or_eq_true, decide_eq_true_eq, ← mem_names]
  exact room

theorem room_of_admits (admitted : registry.admits hemera now entry = true) :
    registry.files.size < maxRegistryEntries ∨ entry.name ∈ registry.names := by
  rw [admits, Bool.and_eq_true, Bool.or_eq_true, decide_eq_true_eq, ← mem_names] at admitted
  exact admitted.2

theorem names_subset_lwwInsert : registry.names ⊆ (registry.lwwInsert entry).names := by
  rw [names_lwwInsert]
  exact Finset.subset_insert _ _

theorem names_subset_validatedMerge :
    registry.names ⊆ (validatedMerge hemera now registry order).1.names :=
  validatedMerge_keeps (fun current => registry.names ⊆ current.names) (Finset.Subset.refl _)
    fun _ held _ _ _ => held.trans names_subset_lwwInsert

theorem validatedMerge_names_subset :
    (validatedMerge hemera now registry order).1.names ⊆
      registry.names ∪ offered hemera now order := by
  refine validatedMerge_keeps (fun current => current.names ⊆ registry.names ∪ _)
    Finset.subset_union_left ?_
  intro current held entry member admitted
  rw [names_lwwInsert]
  refine Finset.insert_subset (Finset.mem_union_right _ ?_) held
  exact mem_offered.mpr ⟨entry, member, valid_of_admits admitted, rfl⟩

/-- A name that is offered is turned away by a full registry only. -/
theorem mem_names_of_room
    (room : (validatedMerge hemera now registry order).1.files.size < maxRegistryEntries)
    (wanted : name ∈ offered hemera now order) :
    name ∈ (validatedMerge hemera now registry order).1.names := by
  obtain ⟨entry, member, valid, rfl⟩ := mem_offered.mp wanted
  obtain ⟨front, back, rfl⟩ := List.append_of_mem member
  rw [validatedMerge_append] at room ⊢
  generalize (validatedMerge hemera now registry front).1 = current at room ⊢
  have small : current.files.size < maxRegistryEntries := by
    refine lt_of_le_of_lt ?_ room
    rw [← card_names, ← card_names]
    exact Finset.card_le_card names_subset_validatedMerge
  have admitted : current.admits hemera now entry = true := admits_of_valid valid (.inl small)
  rw [validatedMerge_cons_of_admits admitted]
  refine names_subset_validatedMerge ?_
  rw [names_lwwInsert]
  exact Finset.mem_insert_self _ _

/-- Some of the new names fit into the registry, and not all of them. -/
def Overfull (hemera : Hemera) (now : Nat) (registry remote : GSet) : Prop :=
  registry.files.size < maxRegistryEntries ∧
    maxRegistryEntries < (registry.names ∪ offered hemera now remote.values).card

/-- The largest stamp that is let in for a name is the stamp of two entries, and the
registry does not hold the name with that stamp or a larger one. -/
def Contested (hemera : Hemera) (now : Nat) (registry remote : GSet) : Prop :=
  ∃ first ∈ remote.values, ∃ second ∈ remote.values, first ≠ second ∧
    first.name = second.name ∧ first.stamp = second.stamp ∧
    registry.admits hemera now first = true ∧ registry.admits hemera now second = true ∧
    registry.rank first.name < (first.stamp : WithBot Stamp) ∧
    ∀ entry ∈ remote.values, entry.name = first.name →
      registry.admits hemera now entry = true → entry.stamp ≤ first.stamp

/-- Of the files of a registry only the names decide what it lets in. -/
theorem admits_congr {current : GSet} (same : current.names = registry.names) :
    current.admits hemera now entry = registry.admits hemera now entry := by
  have sized : current.files.size = registry.files.size := by
    rw [← card_names, same, card_names]
  rw [Bool.eq_iff_iff]
  constructor
  · intro admitted
    refine admits_of_valid (valid_of_admits admitted) ?_
    rw [← same, ← sized]
    exact room_of_admits admitted
  · intro admitted
    refine admits_of_valid (valid_of_admits admitted) ?_
    rw [same, sized]
    exact room_of_admits admitted

/-- While all names fit, what is met on the way takes the room of no other entry. -/
theorem admits_of_roomy {current : GSet} (room : registry.files.size < maxRegistryEntries)
    (roomy : (registry.names ∪ offered hemera now order).card ≤ maxRegistryEntries)
    (within : current.names ⊆ registry.names ∪ offered hemera now order) (member : entry ∈ order) :
    current.admits hemera now entry = registry.admits hemera now entry := by
  rw [Bool.eq_iff_iff]
  constructor
  · intro admitted
    exact admits_of_valid (valid_of_admits admitted) (.inl room)
  · intro admitted
    have valid := valid_of_admits admitted
    refine admits_of_valid valid ?_
    by_cases held : entry.name ∈ current.names
    · exact .inr held
    · -- the name itself still has its place in the union
      refine .inl (lt_of_lt_of_le ?_ roomy)
      rw [← card_names]
      refine Finset.card_lt_card (Finset.ssubset_iff_subset_ne.mpr ⟨within, ?_⟩)
      intro same
      rw [same] at held
      exact held (Finset.mem_union_right _ (mem_offered.mpr ⟨entry, member, valid, rfl⟩))

/-- Unless the registry fills up on the way, an entry gets in if it would at the start. -/
theorem validatedMerge_of_not_overfull (settled : ¬ Overfull hemera now registry remote)
    (walk : remote.Iterates order) :
    validatedMerge hemera now registry order =
      (registry.merge (order.filter (registry.admits hemera now)),
        order.countP (registry.admits hemera now),
        order.countP fun entry => !registry.admits hemera now entry) := by
  by_cases full : maxRegistryEntries ≤ registry.files.size
  · refine validatedMerge_eq_merge _ (fun current => current.names = registry.names) rfl ?_ ?_
    · exact fun current same entry _ => admits_congr same
    · intro current same entry _ admitted
      rw [names_lwwInsert, same]
      exact Finset.insert_eq_self.mpr ((room_of_admits admitted).resolve_left (not_lt.mpr full))
  · have room := not_le.mp full
    have roomy : (registry.names ∪ offered hemera now order).card ≤ maxRegistryEntries := by
      rw [offered_perm walk]
      exact not_lt.mp fun crowded => settled ⟨room, crowded⟩
    refine validatedMerge_eq_merge _
      (fun current => current.names ⊆ registry.names ∪ offered hemera now order)
      Finset.subset_union_left ?_ ?_
    · exact fun current within entry member => admits_of_roomy room roomy within member
    · intro current within entry member admitted
      rw [names_lwwInsert]
      refine Finset.insert_subset (Finset.mem_union_right _ ?_) within
      exact mem_offered.mpr ⟨entry, member, valid_of_admits admitted, rfl⟩

/-- A full registry takes no entry of a name that it does not hold. -/
theorem not_mem_names_of_full (full : maxRegistryEntries ≤ registry.files.size)
    (absent : entry.name ∉ registry.names) {walk : List FileEntry}
    (named : ∀ other ∈ walk, other.name = entry.name) :
    entry.name ∉ (validatedMerge hemera now registry walk).1.names := by
  refine (validatedMerge_keeps (fun current => entry.name ∉ current.names ∧
    maxRegistryEntries ≤ current.files.size) ⟨absent, full⟩ ?_).1
  rintro current ⟨missing, packed⟩ other among admitted
  rcases room_of_admits admitted with space | held
  · exact absurd space (not_lt.mpr packed)
  · exact absurd (named other among ▸ held) missing

/-- The other entries alone fill a registry that all of them overfill. -/
theorem full_of_others
    (crowded : maxRegistryEntries < (registry.names ∪ offered hemera now remote.values).card) :
    maxRegistryEntries ≤ (validatedMerge hemera now registry
      (remote.values.filter (·.name ≠ entry.name))).1.files.size := by
  by_contra! short
  have covered : registry.names ∪ offered hemera now remote.values ⊆ Insert.insert entry.name
      (validatedMerge hemera now registry (remote.values.filter (·.name ≠ entry.name))).1.names := by
    refine Finset.union_subset (names_subset_validatedMerge.trans (Finset.subset_insert _ _)) ?_
    intro other brought
    obtain ⟨source, among, passes, rfl⟩ := mem_offered.mp brought
    by_cases here : source.name = entry.name
    · rw [here]
      exact Finset.mem_insert_self _ _
    · have kept : source ∈ remote.values.filter (·.name ≠ entry.name) :=
        List.mem_filter.mpr ⟨among, decide_eq_true here⟩
      exact Finset.mem_insert_of_mem
        (mem_names_of_room short (mem_offered.mpr ⟨source, kept, passes, rfl⟩))
  have counted := (Finset.card_le_card covered).trans (Finset.card_insert_le _ _)
  rw [card_names] at counted
  omega

/-- A name that is still free when the registry fills up depends on the walk. -/
theorem validatedMerge_of_overfull (overfull : Overfull hemera now registry remote) :
    ∃ first second, remote.Iterates first ∧ remote.Iterates second ∧
      (validatedMerge hemera now registry first).1 ≠
        (validatedMerge hemera now registry second).1 := by
  obtain ⟨room, crowded⟩ := overfull
  obtain ⟨name, wanted, absent⟩ :
      ∃ name ∈ registry.names ∪ offered hemera now remote.values, name ∉ registry.names := by
    refine Finset.exists_mem_notMem_of_card_lt_card ?_
    rw [card_names]
    exact room.trans crowded
  obtain ⟨entry, member, valid, rfl⟩ := mem_offered.mp ((Finset.mem_union.mp wanted).resolve_left absent)
  let others := remote.values.filter (·.name ≠ entry.name)
  let own := remote.values.filter fun other => !decide (other.name ≠ entry.name)
  refine ⟨entry :: remote.values.erase entry, others ++ own,
    (List.perm_cons_erase member).symm, List.filter_append_perm _ _, ?_⟩
  have early : entry.name ∈
      (validatedMerge hemera now registry (entry :: remote.values.erase entry)).1.names := by
    rw [validatedMerge_cons_of_admits (admits_of_valid valid (.inl room))]
    refine names_subset_validatedMerge ?_
    rw [names_lwwInsert]
    exact Finset.mem_insert_self _ _
  have free : entry.name ∉ (validatedMerge hemera now registry others).1.names := by
    intro held
    rcases Finset.mem_union.mp (validatedMerge_names_subset held) with before | brought
    · exact absent before
    · obtain ⟨other, among, _, same⟩ := mem_offered.mp brought
      exact absurd same (by simpa [others] using (List.mem_filter.mp among).2)
  have late : entry.name ∉ (validatedMerge hemera now registry (others ++ own)).1.names := by
    rw [validatedMerge_append]
    refine not_mem_names_of_full (full_of_others crowded) free fun other among => ?_
    simpa [own] using (List.mem_filter.mp among).2
  intro agree
  rw [agree] at early
  exact late early

/-- An entry that is met first and has the largest stamp is the one that is held. -/
theorem validatedMerge_first_wins (admitted : registry.admits hemera now entry = true)
    (newer : registry.rank entry.name < (entry.stamp : WithBot Stamp))
    (largest : ∀ other ∈ rest, other.name = entry.name →
      registry.admits hemera now other = true → other.stamp ≤ entry.stamp) :
    (validatedMerge hemera now registry (entry :: rest)).1.files[entry.name]? = some entry := by
  rw [validatedMerge_cons_of_admits admitted]
  refine validatedMerge_keeps (fun current => current.files[entry.name]? = some entry) ?_ ?_
  · rw [lwwInsert_getElem?, if_pos ⟨rfl, newer⟩]
  · intro current held other member passes
    rw [lwwInsert_getElem?, if_neg, held]
    rintro ⟨here, later⟩
    have once : registry.admits hemera now other = true :=
      admits_of_valid (valid_of_admits passes) (here ▸ room_of_admits admitted)
    rw [rank_of_getElem? held, WithBot.coe_lt_coe] at later
    exact absurd (largest other member here once) (not_le.mpr later)

theorem validatedMerge_of_contested (contested : Contested hemera now registry remote) :
    ∃ first second, remote.Iterates first ∧ remote.Iterates second ∧
      (validatedMerge hemera now registry first).1 ≠
        (validatedMerge hemera now registry second).1 := by
  obtain ⟨first, firstIn, second, secondIn, apart, named, stamped, firstAdmitted, secondAdmitted,
    newer, largest⟩ := contested
  refine ⟨first :: remote.values.erase first, second :: remote.values.erase second,
    (List.perm_cons_erase firstIn).symm, (List.perm_cons_erase secondIn).symm, fun agree => apart ?_⟩
  have firstHeld := validatedMerge_first_wins firstAdmitted newer
    fun other (member : other ∈ remote.values.erase first) =>
      largest other (List.mem_of_mem_erase member)
  have secondHeld := validatedMerge_first_wins secondAdmitted (named ▸ stamped ▸ newer)
    fun other (member : other ∈ remote.values.erase second) here admitted =>
      stamped ▸ largest other (List.mem_of_mem_erase member) (here.trans named.symm) admitted
  rw [agree, named, secondHeld] at firstHeld
  exact (Option.some.inj firstHeld).symm

end Admission

/-- A validated merge has one outcome exactly when the registry does not fill up on the way
and no two entries tie for a name. -/
theorem validatedMerge_order_free_iff (hemera : Hemera) (now : Nat) (registry remote : GSet) :
    (∀ first second, remote.Iterates first → remote.Iterates second →
      validatedMerge hemera now registry first = validatedMerge hemera now registry second) ↔
    ¬ Overfull hemera now registry remote ∧ ¬ Contested hemera now registry remote := by
  constructor
  · intro agree
    constructor
    · intro overfull
      obtain ⟨first, second, firstWalk, secondWalk, differ⟩ := validatedMerge_of_overfull overfull
      exact differ (congrArg Prod.fst (agree first second firstWalk secondWalk))
    · intro contested
      obtain ⟨first, second, firstWalk, secondWalk, differ⟩ := validatedMerge_of_contested contested
      exact differ (congrArg Prod.fst (agree first second firstWalk secondWalk))
  · rintro ⟨settled, uncontested⟩ first second firstWalk secondWalk
    have perm : first.Perm second := firstWalk.trans secondWalk.symm
    rw [validatedMerge_of_not_overfull settled firstWalk,
      validatedMerge_of_not_overfull settled secondWalk, perm.countP_eq, perm.countP_eq]
    congr 1
    refine merge_perm registry (perm.filter _) ?_
    intro left leftIn right rightIn named stamped newer largest
    obtain ⟨leftMet, leftAdmitted⟩ := List.mem_filter.mp leftIn
    obtain ⟨rightMet, rightAdmitted⟩ := List.mem_filter.mp rightIn
    by_contra apart
    refine uncontested ⟨left, firstWalk.mem_iff.mp leftMet, right, firstWalk.mem_iff.mp rightMet,
      apart, named, stamped, leftAdmitted, rightAdmitted, newer, ?_⟩
    intro entry member here admitted
    exact largest entry (List.mem_filter.mpr ⟨firstWalk.mem_iff.mpr member, admitted⟩) here

section Ties

variable {name : String}

/-- An entry that passes `validate` at any clock reading. -/
def drafted (name : String) (k : Nat) : FileEntry where
  name := name
  originalLen := 3
  k := k
  n := 2
  shardHashes := ["aa"]
  timestamp := 1
  entryHash := FileEntry.computeHash Hemera.truncating name ["aa"] 1 "device"
  deviceId := "device"
  dasRoot := "cc"
  shardCopies := 1
  deleted := false

theorem drafted_valid {k : Nat} (named : name.isEmpty = false) :
    ((drafted name k).validate Hemera.truncating 0).isOk = true := by
  simp [FileEntry.validate, drafted, FileEntry.verifyHash, named, maxClockDriftMs,
    Except.isOk, Except.toBool]

/-- Two entries under two keys. -/
def holding (left right : String × FileEntry) : GSet :=
  { files := ((∅ : Std.ExtTreeMap String FileEntry).insert left.1 left.2).insert right.1 right.2 }

theorem mem_holding (left right : String × FileEntry) (apart : left.1 ≠ right.1) :
    left.2 ∈ (holding left right).values ∧ right.2 ∈ (holding left right).values := by
  refine ⟨mem_values.mpr ⟨left.1, ?_⟩, mem_values.mpr ⟨right.1, ?_⟩⟩
  · rw [holding, Std.ExtTreeMap.getElem?_insert, if_neg, Std.ExtTreeMap.getElem?_insert_self]
    exact fun same => apart (Std.LawfulEqCmp.eq_of_compare same).symm
  · exact Std.ExtTreeMap.getElem?_insert_self

theorem of_mem_holding {left right : String × FileEntry} {entry : FileEntry}
    (member : entry ∈ (holding left right).values) : entry = left.2 ∨ entry = right.2 := by
  obtain ⟨key, held⟩ := mem_values.mp member
  simp only [holding, Std.ExtTreeMap.getElem?_insert] at held
  split_ifs at held
  · exact .inr (Option.some.inj held).symm
  · exact .inl (Option.some.inj held).symm
  · simp at held

theorem names_merge (registry : GSet) (order : List FileEntry) :
    (registry.merge order).names = registry.names ∪ (order.map FileEntry.name).toFinset := by
  induction order generalizing registry with
  | nil => simp [merge]
  | cons entry rest ih =>
      rw [merge_cons, ih, names_lwwInsert, List.map_cons, List.toFinset_cons, Finset.insert_union,
        Finset.union_insert]

def strokes (count : Nat) : String := String.ofList (List.replicate (count + 1) 'a')

/-- A registry with room for one more name. -/
def nearlyFull : GSet := new.merge ((List.range 99999).map fun count => drafted (strokes count) 1)

theorem nearlyFull_names : nearlyFull.names = ((List.range 99999).map strokes).toFinset := by
  rw [nearlyFull, names_merge, List.map_map]
  have empty : new.names = ∅ := by
    simp [names, new]
  rw [empty, Finset.empty_union]
  rfl

theorem nearlyFull_size : nearlyFull.files.size = 99999 := by
  have distinct : Function.Injective strokes := by
    intro left right same
    have lengths := congrArg String.length same
    simpa [strokes] using lengths
  rw [← card_names, nearlyFull_names, List.toFinset_card_of_nodup (List.nodup_range.map distinct),
    List.length_map, List.length_range]

theorem not_mem_nearlyFull (other : name.toList.head? ≠ some 'a') : name ∉ nearlyFull.names := by
  rw [nearlyFull_names, List.mem_toFinset, List.mem_map]
  rintro ⟨count, -, rfl⟩
  exact other (by rw [strokes, String.toList_ofList]; rfl)

/-- Two entries tie for one name; two names compete for the last place. -/
theorem validatedMerge_order_matters :
    (∃ first second,
      (holding ("copy", drafted "notes" 1) ("notes", drafted "notes" 2)).Iterates first ∧
      (holding ("copy", drafted "notes" 1) ("notes", drafted "notes" 2)).Iterates second ∧
      (validatedMerge Hemera.truncating 0 new first).1 ≠
        (validatedMerge Hemera.truncating 0 new second).1) ∧
    ∃ first second,
      (holding ("b", drafted "b" 1) ("c", drafted "c" 1)).Iterates first ∧
      (holding ("b", drafted "b" 1) ("c", drafted "c" 1)).Iterates second ∧
      (validatedMerge Hemera.truncating 0 nearlyFull first).1 ≠
        (validatedMerge Hemera.truncating 0 nearlyFull second).1 := by
  constructor
  · refine validatedMerge_of_contested ?_
    have empty : new.files.size < maxRegistryEntries := by
      rw [new, Std.ExtTreeMap.size_empty]
      decide
    obtain ⟨firstIn, secondIn⟩ :=
      mem_holding ("copy", drafted "notes" 1) ("notes", drafted "notes" 2) (by decide)
    refine ⟨_, firstIn, _, secondIn, by simp [drafted], rfl, rfl,
      admits_of_valid (drafted_valid (by decide)) (.inl empty),
      admits_of_valid (drafted_valid (by decide)) (.inl empty), ?_, ?_⟩
    · rw [new_rank]
      exact WithBot.bot_lt_coe _
    · intro entry member _ _
      rcases of_mem_holding member with rfl | rfl
      · exact le_refl _
      · exact le_refl _
  · refine validatedMerge_of_overfull ⟨?_, ?_⟩
    · rw [nearlyFull_size]
      decide
    · obtain ⟨firstIn, secondIn⟩ :=
        mem_holding ("b", drafted "b" 1) ("c", drafted "c" 1) (by decide)
      have free : ("c" : String) ∉ nearlyFull.names := not_mem_nearlyFull (by decide)
      have alsoFree : ("b" : String) ∉ Insert.insert "c" nearlyFull.names := by
        rw [Finset.mem_insert, not_or]
        exact ⟨by decide, not_mem_nearlyFull (by decide)⟩
      have counted : (Insert.insert "b" (Insert.insert "c" nearlyFull.names)).card = 100001 := by
        rw [Finset.card_insert_of_notMem alsoFree, Finset.card_insert_of_notMem free, card_names,
          nearlyFull_size]
      refine lt_of_lt_of_le (b := 100001) (by decide) (counted ▸ Finset.card_le_card ?_)
      refine Finset.insert_subset (Finset.mem_union_right _ ?_)
        (Finset.insert_subset (Finset.mem_union_right _ ?_) Finset.subset_union_left)
      · exact mem_offered.mpr ⟨_, firstIn, drafted_valid (by decide), rfl⟩
      · exact mem_offered.mpr ⟨_, secondIn, drafted_valid (by decide), rfl⟩

end Ties

end GSet

end Foculus.Store

import Foculus.Data.JoinSchedule
import Foculus.Store.Registry
import Mathlib.Data.Fin.VecNotation
import Mathlib.Data.Fintype.Basic
import Mathlib.Order.WithBot

namespace Foculus.Store

open Data

/-- What `lww_insert` compares: the timestamp, then the entry hash. -/
abbrev Stamp := ℕ ×ₗ String

def FileEntry.stamp (entry : FileEntry) : Stamp := toLex (entry.timestamp.toNat, entry.entryHash)

theorem stamp_lt_iff (existing entry : FileEntry) :
    existing.stamp < entry.stamp ↔ entry.timestamp > existing.timestamp ∨
      (entry.timestamp = existing.timestamp ∧ entry.entryHash > existing.entryHash) := by
  rw [FileEntry.stamp, FileEntry.stamp, Prod.Lex.toLex_lt_toLex]
  constructor
  · rintro (newer | ⟨same, later⟩)
    · exact .inl (UInt64.lt_iff_toNat_lt.mpr newer)
    · exact .inr ⟨(UInt64.toNat_inj.mp same).symm, later⟩
  · rintro (newer | ⟨same, later⟩)
    · exact .inl (UInt64.lt_iff_toNat_lt.mp newer)
    · exact .inr ⟨congrArg UInt64.toNat same.symm, later⟩

namespace GSet

def Keyed (registry : GSet) : Prop :=
  ∀ (name : String) (entry : FileEntry), registry.files[name]? = some entry → entry.name = name

/-- The stamp held for a name, below every stamp when the name is absent. -/
def rank (registry : GSet) (name : String) : WithBot Stamp :=
  (registry.files[name]?).map FileEntry.stamp

theorem rank_of_getElem? {registry : GSet} {name : String} {entry : FileEntry}
    (found : registry.files[name]? = some entry) : registry.rank name = (entry.stamp : WithBot Stamp) := by
  rw [rank, found]
  rfl

theorem rank_of_absent {registry : GSet} {name : String}
    (absent : registry.files[name]? = none) : registry.rank name = ⊥ := by
  rw [rank, absent]
  rfl

theorem rank_eq_iff {left right : GSet} {name : String} :
    left.rank name = right.rank name ↔
      (left.files[name]?).map FileEntry.stamp = (right.files[name]?).map FileEntry.stamp :=
  Iff.rfl

theorem new_keyed : new.Keyed := by
  intro name entry found
  simp [new] at found

theorem new_rank (name : String) : new.rank name = ⊥ := by
  simp [rank, new]
  rfl

theorem insert_spec (registry : GSet) (entry : FileEntry) (name : String) :
    ({ files := registry.files.insert entry.name entry } : GSet).files[name]? =
      if entry.name = name then some entry else registry.files[name]? := by
  rw [Std.ExtTreeMap.getElem?_insert]
  by_cases here : entry.name = name <;> simp [here]

theorem lwwInsert_rank (registry : GSet) (entry : FileEntry) (name : String) :
    (registry.lwwInsert entry).rank name =
      if entry.name = name then registry.rank name ⊔ (entry.stamp : WithBot Stamp)
      else registry.rank name := by
  unfold lwwInsert
  cases found : registry.files[entry.name]? with
  | none =>
      by_cases here : entry.name = name
      · subst name
        rw [if_pos rfl, rank_of_absent found, bot_sup_eq]
        exact rank_of_getElem? (by rw [insert_spec, if_pos rfl])
      · rw [if_neg here, rank, insert_spec, if_neg here, ← rank]
  | some existing =>
      simp only [← stamp_lt_iff existing entry]
      by_cases newer : existing.stamp < entry.stamp
      · rw [if_pos newer]
        by_cases here : entry.name = name
        · subst name
          have below : (existing.stamp : WithBot Stamp) ≤ entry.stamp :=
            WithBot.coe_le_coe.mpr newer.le
          rw [if_pos rfl, rank_of_getElem? found, sup_eq_right.mpr below]
          exact rank_of_getElem? (by rw [insert_spec, if_pos rfl])
        · rw [if_neg here, rank, insert_spec, if_neg here, ← rank]
      · rw [if_neg newer]
        by_cases here : entry.name = name
        · subst name
          have below : (entry.stamp : WithBot Stamp) ≤ existing.stamp :=
            WithBot.coe_le_coe.mpr (not_lt.mp newer)
          rw [if_pos rfl, rank_of_getElem? found, sup_eq_left.mpr below]
        · rw [if_neg here]

/-- What is held under the name of an inserted entry. -/
theorem getRaw_insert (registry : GSet) (entry : FileEntry) :
    (registry.insert entry).getRaw entry.name =
      match registry.getRaw entry.name with
      | none => some entry
      | some held => if held.stamp < entry.stamp then some entry else some held := by
  rw [getRaw, getRaw, insert, lwwInsert]
  cases found : registry.files[entry.name]? with
  | none => simp
  | some held =>
      simp only [← stamp_lt_iff held entry]
      split_ifs
      · simp
      · exact found

theorem lwwInsert_keyed {registry : GSet} (keyed : registry.Keyed) (entry : FileEntry) :
    (registry.lwwInsert entry).Keyed := by
  have inserted : ({ files := registry.files.insert entry.name entry } : GSet).Keyed := by
    intro name stored found
    rw [insert_spec] at found
    by_cases here : entry.name = name
    · rw [if_pos here] at found
      cases found
      exact here
    · rw [if_neg here] at found
      exact keyed name stored found
  unfold lwwInsert
  cases registry.files[entry.name]? with
  | none => exact inserted
  | some existing =>
      dsimp only
      split
      · exact inserted
      · exact keyed

/-- A whole walk raises the stamp of a name to the largest stamp the walk meets
under that name. -/
theorem merge_rank (registry : GSet) (order : List FileEntry) (name : String) :
    (registry.merge order).rank name =
      registry.rank name ⊔ (order.filter (·.name = name)).foldr
        (fun entry rest => (entry.stamp : WithBot Stamp) ⊔ rest) ⊥ := by
  induction order generalizing registry with
  | nil => simp [merge]
  | cons entry rest ih =>
      have step := ih (registry.lwwInsert entry)
      rw [lwwInsert_rank] at step
      change (((rest.foldl lwwInsert (registry.lwwInsert entry))).rank name) = _
      rw [merge] at step
      rw [step]
      by_cases here : entry.name = name
      · simp only [here, decide_true, List.filter_cons_of_pos, List.foldr_cons, if_true, sup_assoc]
      · simp only [here, decide_false, Bool.false_eq_true, not_false_eq_true,
          List.filter_cons_of_neg, if_false]

theorem merge_keyed {registry : GSet} (keyed : registry.Keyed) (order : List FileEntry) :
    (registry.merge order).Keyed := by
  induction order generalizing registry with
  | nil => exact keyed
  | cons entry rest ih => exact ih (lwwInsert_keyed keyed entry)

theorem mem_values {registry : GSet} {entry : FileEntry} :
    entry ∈ registry.values ↔ ∃ name : String, registry.files[name]? = some entry := by
  simp only [values, List.mem_map, Prod.exists, exists_eq_right,
    Std.ExtTreeMap.mem_toList_iff_getElem?_eq_some]

/-- In a walk over a keyed registry the only entry met under a name is the one
stored there. -/
theorem foldr_stamp_of_iterates {source : GSet} (keyed : source.Keyed) {order : List FileEntry}
    (iterates : source.Iterates order) (name : String) :
    (order.filter (·.name = name)).foldr
      (fun entry rest => (entry.stamp : WithBot Stamp) ⊔ rest) ⊥ = source.rank name := by
  have stored : ∀ entry ∈ order.filter (·.name = name), source.files[name]? = some entry := by
    intro entry member
    obtain ⟨inOrder, here⟩ := List.mem_filter.mp member
    obtain ⟨key, found⟩ := mem_values.mp (iterates.mem_iff.mp inOrder)
    have same : entry.name = name := by simpa using here
    rwa [← keyed key entry found, same] at found
  cases found : source.files[name]? with
  | none =>
      have empty : order.filter (·.name = name) = [] := by
        apply List.eq_nil_iff_forall_not_mem.mpr
        intro entry member
        have present := stored entry member
        rw [found] at present
        cases present
      rw [empty, rank_of_absent found]
      rfl
  | some entry =>
      have only : ∀ other ∈ order.filter (·.name = name), other = entry := by
        intro other member
        have same := stored other member
        rw [found] at same
        exact (Option.some.inj same).symm
      have present : entry ∈ order.filter (·.name = name) := by
        refine List.mem_filter.mpr ⟨iterates.mem_iff.mpr (mem_values.mpr ⟨name, found⟩), ?_⟩
        simpa using keyed name entry found
      have repeated : ∀ entries : List FileEntry, entries ≠ [] →
          (∀ other ∈ entries, other = entry) →
          entries.foldr (fun entry rest => (entry.stamp : WithBot Stamp) ⊔ rest) ⊥ =
            (entry.stamp : WithBot Stamp) := by
        intro entries nonempty all
        induction entries with
        | nil => exact absurd rfl nonempty
        | cons head tail ih =>
            have headEq := all head (by simp)
            subst head
            cases tail with
            | nil => simp
            | cons next rest =>
                rw [List.foldr_cons, ih (by simp) fun other member => all other (by simp [member]),
                  sup_idem]
      rw [repeated _ (List.ne_nil_of_mem present) only, rank_of_getElem? found]

/-- One `GSet::merge` call, for whatever order the other map is walked in. -/
def Merges (target source result : GSet) : Prop :=
  ∃ order, source.Iterates order ∧ result = target.merge order

theorem merges_joins {target source result : GSet} (targetKeyed : target.Keyed)
    (sourceKeyed : source.Keyed) (merged : Merges target source result) :
    result.Keyed ∧ result.rank = target.rank ⊔ source.rank := by
  obtain ⟨order, iterates, rfl⟩ := merged
  refine ⟨merge_keyed targetKeyed order, ?_⟩
  funext name
  rw [merge_rank, foldr_stamp_of_iterates sourceKeyed iterates, Pi.sup_apply]

/-- Registries that agree on every stamp have the same root, for every walk. -/
theorem merkleRoot_of_rank_eq (hemera : Hemera) {left right : GSet} (same : left.rank = right.rank)
    {leftOrder rightOrder : List FileEntry} (leftWalk : left.Iterates leftOrder)
    (rightWalk : right.Iterates rightOrder) :
    merkleRoot hemera leftOrder = merkleRoot hemera rightOrder := by
  have hashes : left.files.map (fun _ entry => entry.entryHash) =
      right.files.map (fun _ entry => entry.entryHash) := by
    apply Std.ExtTreeMap.ext_getElem?
    intro name
    have stamps := congrArg (Option.map fun stamp : Stamp => (ofLex stamp).2)
      (rank_eq_iff.mp (congrFun same name))
    rw [Option.map_map, Option.map_map] at stamps
    rw [Std.ExtTreeMap.getElem?_map, Std.ExtTreeMap.getElem?_map]
    exact stamps
  have listed (registry : GSet) : registry.values.map FileEntry.entryHash =
      (registry.files.map fun _ entry => entry.entryHash).toList.map Prod.snd := by
    rw [Std.ExtTreeMap.toList_map, List.map_map, values, List.map_map]
    rfl
  have permuted : (leftOrder.map FileEntry.entryHash).Perm (rightOrder.map FileEntry.entryHash) := by
    refine (leftWalk.map _).trans ?_
    rw [listed left, hashes, ← listed right]
    exact (rightWalk.map _).symm
  have sorted (texts : List String) :
      (texts.mergeSort fun left right => decide (left ≤ right)).Pairwise (· ≤ ·) := by
    have pairwise := @List.pairwise_mergeSort String (fun left right => decide (left ≤ right))
      (fun a b c first second => by
        simp only [decide_eq_true_eq] at *
        exact le_trans first second)
      (fun a b => by
        simp only [Bool.or_eq_true, decide_eq_true_eq]
        exact le_total a b) texts
    simpa only [decide_eq_true_eq] using pairwise
  have canonical : (leftOrder.map FileEntry.entryHash).mergeSort (fun a b => decide (a ≤ b)) =
      (rightOrder.map FileEntry.entryHash).mergeSort (fun a b => decide (a ≤ b)) :=
    List.Perm.eq_of_pairwise (fun _ _ _ _ => le_antisymm) (sorted _) (sorted _)
      ((List.mergeSort_perm _ _).trans (permuted.trans (List.mergeSort_perm _ _).symm))
  simp only [merkleRoot, canonical]

/-- `held` is what a replica that has seen all registries must hold for `name`:
nothing when no registry has it, otherwise an entry whose stamp is the largest
of the stamps the registries hold. -/
def Newest {ι : Type} (registries : ι → GSet) (name : String) : Option FileEntry → Prop
  | none => ∀ index, (registries index).files[name]? = none
  | some entry =>
      (∃ index held, (registries index).files[name]? = some held ∧ held.stamp = entry.stamp) ∧
        ∀ index held, (registries index).files[name]? = some held → held.stamp ≤ entry.stamp

theorem newest_of_rank_eq {count : Nat} {registries : Fin count → GSet} {state : GSet}
    (joined : state.rank = Finset.univ.sup fun index => (registries index).rank) (name : String) :
    Newest registries name state.files[name]? := by
  have here : state.rank name = Finset.univ.sup fun index => (registries index).rank name := by
    rw [joined, Finset.sup_apply]
  have above (index : Fin count) : (registries index).rank name ≤ state.rank name := by
    rw [here]
    exact Finset.le_sup (f := fun index => (registries index).rank name) (Finset.mem_univ index)
  cases found : state.files[name]? with
  | none =>
      intro index
      have below := above index
      rw [rank_of_absent found] at below
      cases held : (registries index).files[name]? with
      | none => rfl
      | some entry =>
          rw [rank_of_getElem? held] at below
          exact absurd below (WithBot.not_coe_le_bot _)
  | some entry =>
      rw [rank_of_getElem? found] at here above
      constructor
      · have nonempty : (Finset.univ : Finset (Fin count)).Nonempty := by
          rw [Finset.nonempty_iff_ne_empty]
          intro empty
          rw [empty, Finset.sup_empty] at here
          exact WithBot.coe_ne_bot here
        obtain ⟨index, _, attained⟩ := Finset.exists_mem_eq_sup _ nonempty
          fun index => (registries index).rank name
        rw [attained] at here
        cases held : (registries index).files[name]? with
        | none =>
            rw [rank_of_absent held] at here
            exact absurd here WithBot.coe_ne_bot
        | some source =>
            rw [rank_of_getElem? held] at here
            exact ⟨index, source, held, (WithBot.coe_injective here).symm⟩
      · intro index held stored
        have below := above index
        rw [rank_of_getElem? stored] at below
        exact WithBot.coe_le_coe.mp below

/-- Any two merge schedules that have incorporated every registry hold the same
names, for each name the newest entry of all registries, and have one root. -/
theorem merge_schedules_converge (hemera : Hemera) (count : Nat) (registries : Fin count → GSet)
    (keyed : ∀ index, (registries index).Keyed) (left right : GSet)
    (leftRun : Scheduled Merges new registries Finset.univ left)
    (rightRun : Scheduled Merges new registries Finset.univ right) :
    (∀ name : String,
      (left.files[name]?).map (fun entry => (entry.timestamp, entry.entryHash)) =
        (right.files[name]?).map (fun entry => (entry.timestamp, entry.entryHash)) ∧
      Newest registries name left.files[name]? ∧ Newest registries name right.files[name]?) ∧
    ∀ leftOrder rightOrder, left.Iterates leftOrder → right.Iterates rightOrder →
      merkleRoot hemera leftOrder = merkleRoot hemera rightOrder := by
  have initial : new.Keyed ∧ new.rank = ⊥ := ⟨new_keyed, funext new_rank⟩
  obtain ⟨_, leftRank⟩ := leftRun.measure_eq initial keyed merges_joins
  obtain ⟨_, rightRank⟩ := rightRun.measure_eq initial keyed merges_joins
  have same : left.rank = right.rank := leftRank.trans rightRank.symm
  refine ⟨fun name => ⟨?_, newest_of_rank_eq leftRank name, newest_of_rank_eq rightRank name⟩,
    fun leftOrder rightOrder => merkleRoot_of_rank_eq hemera same⟩
  have stamps := rank_eq_iff.mp (congrFun same name)
  cases leftFound : left.files[name]? with
  | none =>
      rw [leftFound] at stamps
      rw [Option.map_eq_none_iff.mp stamps.symm]
  | some entry =>
      rw [leftFound] at stamps
      obtain ⟨other, rightFound, stamped⟩ := Option.map_eq_some_iff.mp stamps.symm
      obtain ⟨times, hashes⟩ := Prod.mk.inj (toLex.injective stamped)
      rw [rightFound, Option.map_some, Option.map_some, hashes, UInt64.toNat_inj.mp times]

def single (timestamp : UInt64) (entryHash : String) : GSet :=
  new.lwwInsert {
    name := "notes", originalLen := 3, k := 1, n := 2, shardHashes := ["aa", "bb"], timestamp,
    entryHash, deviceId := "device", dasRoot := "cc", shardCopies := 1, deleted := false }

/-- Two devices merging into each other in opposite directions. -/
theorem merge_schedules_converge_exchange :
    let registries : Fin 2 → GSet := ![single 1 "x", single 2 "y"]
    let left := (single 1 "x").merge (single 2 "y").values
    let right := (single 2 "y").merge (single 1 "x").values
    (∀ index, (registries index).Keyed) ∧
      Scheduled Merges new registries Finset.univ left ∧
      Scheduled Merges new registries Finset.univ right ∧
      ∀ hemera, merkleRoot hemera left.values = merkleRoot hemera right.values := by
  intro registries left right
  have keyed : ∀ index, (registries index).Keyed := by
    intro index
    match index with
    | 0 => exact lwwInsert_keyed new_keyed _
    | 1 => exact lwwInsert_keyed new_keyed _
  have leftRun : Scheduled Merges new registries ({0} ∪ {1}) left :=
    (Scheduled.source 0).merge (Scheduled.source 1) ⟨_, .refl _, rfl⟩
  have rightRun : Scheduled Merges new registries ({1} ∪ {0}) right :=
    (Scheduled.source 1).merge (Scheduled.source 0) ⟨_, .refl _, rfl⟩
  have leftAll : Scheduled Merges new registries Finset.univ left := by
    rwa [show ({0} ∪ {1} : Finset (Fin 2)) = Finset.univ by decide] at leftRun
  have rightAll : Scheduled Merges new registries Finset.univ right := by
    rwa [show ({1} ∪ {0} : Finset (Fin 2)) = Finset.univ by decide] at rightRun
  refine ⟨keyed, leftAll, rightAll, fun hemera => ?_⟩
  exact (merge_schedules_converge hemera 2 registries keyed left right leftAll rightAll).2 _ _
    (.refl _) (.refl _)

end GSet

end Foculus.Store

import Foculus.Chain.Signal
import Mathlib.Data.List.Induction
import Std.Data.ExtTreeMap

namespace Foculus.Conflict

open Chain

/-! # The conflict index (`src/conflict.rs`) -/

abbrev ConflictKey := Particle

def equivocationKey (hemera : Hemera) (sig : Signal) : ConflictKey :=
  hemera.hash (sig.neuron.toList ++ u64Bytes sig.step)

def conflictKeys (hemera : Hemera) (sig : Signal) : List ConflictKey :=
  [equivocationKey hemera sig]

structure ConflictGroup where
  key : ConflictKey
  memberMap : Std.ExtTreeMap Particle Signal

namespace ConflictGroup

def members (group : ConflictGroup) : List Signal := group.memberMap.toList.map Prod.snd

def len (group : ConflictGroup) : Nat := group.memberMap.size

end ConflictGroup

structure ConflictIndex where
  groups : Std.ExtTreeMap ConflictKey (Std.ExtTreeMap Particle Signal)

namespace ConflictIndex

def new : ConflictIndex := { groups := ∅ }

def observe (hemera : Hemera) (index : ConflictIndex) (sig : Signal) :
    ConflictIndex × List ConflictKey :=
  let id := sig.contentId hemera
  (conflictKeys hemera sig).foldl
    (fun (index, newlyConflicting) key =>
      let group := (index.groups[key]?.getD ∅).insert id sig
      ({ groups := index.groups.insert key group },
        if group.size > 1 then newlyConflicting ++ [key] else newlyConflicting))
    (index, [])

def group (index : ConflictIndex) (key : ConflictKey) : Option ConflictGroup :=
  index.groups[key]?.map fun memberMap => { key, memberMap }

def conflicts (index : ConflictIndex) : List ConflictKey :=
  (index.groups.toList.filter fun (_, members) => members.size > 1).map Prod.fst

/-- `seen` is the set of content ids whose links are already in `out`. -/
def collectLinks : List (Particle × Signal) → List Particle → List CyberlinkRecord →
    List Particle × List CyberlinkRecord
  | [], seen, out => (seen, out)
  | (id, sig) :: rest, seen, out =>
      if id ∈ seen then collectLinks rest seen out
      else collectLinks rest (id :: seen) (out ++ sig.links)

def allLinks (index : ConflictIndex) : List CyberlinkRecord :=
  (collectLinks (index.groups.toList.flatMap fun (_, members) => members.toList) [] []).2

def observeAll (hemera : Hemera) (signals : List Signal) : ConflictIndex :=
  signals.foldl (fun index sig => (index.observe hemera sig).1) new

def held (index : ConflictIndex) (key : ConflictKey) (id : Particle) : Option Signal :=
  index.groups[key]?.bind fun members => members[id]?

def joined (hemera : Hemera) (index : ConflictIndex) (sig : Signal) :
    Std.ExtTreeMap Particle Signal :=
  (index.groups[equivocationKey hemera sig]?.getD ∅).insert (sig.contentId hemera) sig

theorem observe_groups (hemera : Hemera) (index : ConflictIndex) (sig : Signal) :
    (index.observe hemera sig).1.groups =
      index.groups.insert (equivocationKey hemera sig) (index.joined hemera sig) := rfl

theorem observe_keys (hemera : Hemera) (index : ConflictIndex) (sig : Signal) :
    (index.observe hemera sig).2 =
      if (index.joined hemera sig).size > 1 then [equivocationKey hemera sig] else [] := rfl

/-- One observation changes one slot of the index. -/
theorem observe_held (hemera : Hemera) (index : ConflictIndex) (sig : Signal) (key : ConflictKey)
    (id : Particle) :
    (index.observe hemera sig).1.held key id =
      if equivocationKey hemera sig = key ∧ sig.contentId hemera = id then some sig
      else index.held key id := by
  rw [held, observe_groups, Std.ExtTreeMap.getElem?_insert]
  by_cases here : equivocationKey hemera sig = key
  · subst key
    simp only [Std.compare_self, if_true, Option.bind_some, true_and]
    rw [joined, Std.ExtTreeMap.getElem?_insert]
    by_cases same : sig.contentId hemera = id
    · simp [same]
    · simp only [Std.compare_eq_iff_eq, same, if_false, held]
      cases index.groups[equivocationKey hemera sig]? <;> simp
  · simp only [Std.compare_eq_iff_eq, here, if_false, false_and, held]

theorem observeAll_append (hemera : Hemera) (signals : List Signal) (sig : Signal) :
    observeAll hemera (signals ++ [sig]) = ((observeAll hemera signals).observe hemera sig).1 := by
  rw [observeAll, List.foldl_append]
  rfl

theorem held_sound {hemera : Hemera} {signals : List Signal} {key : ConflictKey} {id : Particle}
    {sig : Signal} (found : (observeAll hemera signals).held key id = some sig) :
    sig ∈ signals ∧ equivocationKey hemera sig = key ∧ sig.contentId hemera = id := by
  induction signals using List.reverseRecOn with
  | nil => simp [observeAll, new, held] at found
  | append_singleton signals last ih =>
      rw [observeAll_append, observe_held] at found
      split at found
      next slot =>
        cases found
        exact ⟨by simp, slot⟩
      next =>
        obtain ⟨member, slot⟩ := ih found
        exact ⟨by simp [member], slot⟩

theorem held_complete (hemera : Hemera) {signals : List Signal} {sig : Signal}
    (member : sig ∈ signals) :
    ∃ stored, (observeAll hemera signals).held (equivocationKey hemera sig)
      (sig.contentId hemera) = some stored := by
  induction signals using List.reverseRecOn with
  | nil => cases member
  | append_singleton signals last ih =>
      rw [observeAll_append, observe_held]
      split
      next => exact ⟨last, rfl⟩
      next slot =>
        rcases List.mem_append.mp member with earlier | here
        · exact ih earlier
        · rw [List.mem_singleton.mp here] at slot
          exact absurd ⟨rfl, rfl⟩ slot

theorem held_eq_some_iff {index : ConflictIndex} {key : ConflictKey} {id : Particle}
    {sig : Signal} : index.held key id = some sig ↔
      ∃ members, index.groups[key]? = some members ∧ members[id]? = some sig := by
  rw [held, Option.bind_eq_some_iff]

theorem mem_conflicts_iff {index : ConflictIndex} {key : ConflictKey} :
    key ∈ index.conflicts ↔ ∃ members, index.groups[key]? = some members ∧ members.size > 1 := by
  simp only [conflicts, List.mem_map, List.mem_filter, decide_eq_true_eq, Prod.exists,
    exists_and_right, exists_eq_right, Std.ExtTreeMap.mem_toList_iff_getElem?_eq_some]

end ConflictIndex

end Foculus.Conflict

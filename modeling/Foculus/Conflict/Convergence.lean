import Foculus.Conflict.Reconcile
import Mathlib.Data.List.DropRight

namespace Foculus.Conflict

open Chain Data

/-! Every replica resolves alike.

Resolution reads the members of a group and the links of all indexed signals,
and of a signal only what its content id covers.  The contents an index holds
depend on the set of observed signals alone, so resolution does too.
-/

/-- The strategy does not look at block heights. -/
def ContentBlind (fork : ForkChoice) : Prop :=
  ∀ members view, fork (members.map Signal.content) view = fork members view

theorem scan_content {rank : Signal → κ} (blind : ∀ sig : Signal, rank sig.content = rank sig)
    (beats : κ → κ → Bool) (members : List Signal) (offset : Nat) (start : Nat × κ) :
    scan rank beats ((members.map Signal.content).zipIdx offset) start =
      scan rank beats (members.zipIdx offset) start := by
  rw [List.zipIdx_map, scan, List.foldl_map, scan]
  simp only [Prod.map_fst, Prod.map_snd, blind, id]

theorem minHash_contentBlind (hemera : Hemera) : ContentBlind (minHash hemera) := by
  intro members view
  cases members with
  | nil => rfl
  | cons first rest =>
      rw [List.map_cons, minHash, minHash, scan_content (Signal.content_contentId hemera),
        Signal.content_contentId]

theorem focus_contentBlind (hemera : Hemera) (tru : Tru) (params : tru.FocusingParams) :
    ContentBlind (focus hemera tru params) := by
  intro members view
  match members with
  | [] => rfl
  | [_] => rfl
  | first :: second :: rest =>
      have fallback := minHash_contentBlind hemera (first :: second :: rest) view
      simp only [List.map_cons] at fallback
      simp only [List.map_cons, focus]
      rw [fallback, ← List.map_cons, scan_content (fun _ => rfl)]
      rfl

namespace ConflictIndex

/-- The index with the block heights blanked out. -/
def contents (index : ConflictIndex) : ConflictIndex :=
  { groups := index.groups.map fun _ members => members.map fun _ sig => sig.content }

theorem contents_groups (index : ConflictIndex) (key : ConflictKey) :
    index.contents.groups[key]? =
      index.groups[key]?.map fun members => members.map fun _ sig => sig.content := by
  rw [contents, Std.ExtTreeMap.getElem?_map]

theorem contents_conflicts (index : ConflictIndex) : index.contents.conflicts = index.conflicts := by
  rw [conflicts, contents, Std.ExtTreeMap.toList_map, List.filter_map, List.map_map, conflicts]
  simp only [Function.comp_def, Std.ExtTreeMap.size_map]

theorem collectLinks_content (entries : List (Particle × Signal)) (seen : List Particle)
    (out : List CyberlinkRecord) :
    collectLinks (entries.map fun entry => (entry.1, entry.2.content)) seen out =
      collectLinks entries seen out := by
  induction entries generalizing seen out with
  | nil => rfl
  | cons entry rest ih =>
      obtain ⟨id, sig⟩ := entry
      simp only [List.map_cons, collectLinks, Signal.content_links, ih]

theorem contents_allLinks (index : ConflictIndex) : index.contents.allLinks = index.allLinks := by
  have entries : (index.contents.groups.toList.flatMap fun group => group.2.toList) =
      (index.groups.toList.flatMap fun group => group.2.toList).map
        fun entry => (entry.1, entry.2.content) := by
    rw [contents, Std.ExtTreeMap.toList_map, List.flatMap_map, List.map_flatMap]
    simp only [Std.ExtTreeMap.toList_map]
  rw [allLinks, entries, collectLinks_content, allLinks]

theorem observeAll_inhabited {hemera : Hemera} {signals : List Signal} {key : ConflictKey}
    {members : Std.ExtTreeMap Particle Signal}
    (found : (observeAll hemera signals).groups[key]? = some members) :
    ∃ (id : Particle) (sig : Signal), members[id]? = some sig := by
  induction signals using List.reverseRecOn with
  | nil => simp [observeAll, new] at found
  | append_singleton signals last ih =>
      rw [observeAll_append, observe_groups, Std.ExtTreeMap.getElem?_insert] at found
      split at found
      · cases found
        exact ⟨last.contentId hemera, last, by rw [joined, Std.ExtTreeMap.getElem?_insert_self]⟩
      · exact ih found

theorem group_of_member (hemera : Hemera) {signals : List Signal} {sig : Signal}
    (member : sig ∈ signals) :
    ∃ members stored,
      (observeAll hemera signals).groups[equivocationKey hemera sig]? = some members ∧
        members[sig.contentId hemera]? = some stored := by
  obtain ⟨stored, held⟩ := held_complete hemera member
  obtain ⟨members, group, found⟩ := held_eq_some_iff.mp held
  exact ⟨members, stored, group, found⟩

theorem member_of_group {hemera : Hemera} {signals : List Signal} {key : ConflictKey}
    {id : Particle} {members : Std.ExtTreeMap Particle Signal} {sig : Signal}
    (group : (observeAll hemera signals).groups[key]? = some members)
    (found : members[id]? = some sig) :
    sig ∈ signals ∧ equivocationKey hemera sig = key ∧ sig.contentId hemera = id :=
  held_sound (held_eq_some_iff.mpr ⟨members, group, found⟩)

/-- What is stored under a key and an id after one sequence is, if perhaps with
another block height, after every larger one. -/
theorem stored_of_subset {hemera : Hemera} {left right : List Signal}
    (subset : ∀ sig ∈ left, sig ∈ right) {key : ConflictKey} {id : Particle}
    {members : Std.ExtTreeMap Particle Signal} {sig : Signal}
    (group : (observeAll hemera left).groups[key]? = some members)
    (found : members[id]? = some sig) :
    ∃ others stored, (observeAll hemera right).groups[key]? = some others ∧
      others[id]? = some stored := by
  obtain ⟨observed, rfl, rfl⟩ := member_of_group group found
  exact group_of_member hemera (subset sig observed)

/-- The contents held after a sequence depend only on the set of its signals. -/
theorem contents_eq {hemera : Hemera} {left right : List Signal}
    (same : ∀ sig, sig ∈ left ↔ sig ∈ right)
    (binding : ∀ first ∈ left, ∀ second ∈ left,
      first.contentId hemera = second.contentId hemera → first.SameContent second) :
    (observeAll hemera left).contents = (observeAll hemera right).contents := by
  have forth (sig : Signal) (member : sig ∈ left) : sig ∈ right := (same sig).mp member
  have back (sig : Signal) (member : sig ∈ right) : sig ∈ left := (same sig).mpr member
  have groups : (observeAll hemera left).contents.groups =
      (observeAll hemera right).contents.groups := by
    apply Std.ExtTreeMap.ext_getElem?
    intro key
    rw [contents_groups, contents_groups]
    cases leftGroup : (observeAll hemera left).groups[key]? with
    | none =>
        cases rightGroup : (observeAll hemera right).groups[key]? with
        | none => rfl
        | some others =>
            obtain ⟨id, sig, found⟩ := observeAll_inhabited rightGroup
            obtain ⟨members, _, group, _⟩ := stored_of_subset back rightGroup found
            rw [leftGroup] at group
            cases group
    | some members =>
        obtain ⟨id, sig, inhabited⟩ := observeAll_inhabited leftGroup
        obtain ⟨others, _, rightGroup, _⟩ := stored_of_subset forth leftGroup inhabited
        rw [rightGroup, Option.map_some, Option.map_some, Option.some.injEq]
        apply Std.ExtTreeMap.ext_getElem?
        intro id
        rw [Std.ExtTreeMap.getElem?_map, Std.ExtTreeMap.getElem?_map]
        cases leftFound : members[id]? with
        | none =>
            cases rightFound : others[id]? with
            | none => rfl
            | some sig =>
                obtain ⟨members', _, group, found⟩ := stored_of_subset back rightGroup rightFound
                rw [Option.some.inj (leftGroup.symm.trans group), found] at leftFound
                cases leftFound
        | some first =>
            obtain ⟨others', second, group, rightFound⟩ :=
              stored_of_subset forth leftGroup leftFound
            rw [← Option.some.inj (rightGroup.symm.trans group)] at rightFound
            obtain ⟨firstSeen, _, firstId⟩ := member_of_group leftGroup leftFound
            obtain ⟨secondSeen, _, secondId⟩ := member_of_group rightGroup rightFound
            have agree := binding first firstSeen second (back second secondSeen)
              (firstId.trans secondId.symm)
            rw [rightFound, Option.map_some, Option.map_some, Signal.sameContent_iff.mp agree]
  exact congrArg ConflictIndex.mk groups

end ConflictIndex

namespace Reconciler

theorem resolveKey_contents {fork : ForkChoice} (blind : ContentBlind fork) (hemera : Hemera)
    (index : ConflictIndex) (key : ConflictKey) :
    resolveKey hemera { index := index.contents, fork } key =
      resolveKey hemera { index, fork } key := by
  simp only [resolveKey, ConflictIndex.group, ConflictIndex.contents_groups,
    ConflictIndex.contents_allLinks]
  cases index.groups[key]? with
  | none => rfl
  | some members =>
      have listed : (members.map fun _ sig => sig.content).toList.map Prod.snd =
          (members.toList.map Prod.snd).map Signal.content := by
        rw [Std.ExtTreeMap.toList_map, List.map_map, List.map_map]
        rfl
      have choice := blind (members.toList.map Prod.snd) index.allLinks
      simp only [Option.map_some, ConflictGroup.members, listed, choice]
      cases fork (members.toList.map Prod.snd) index.allLinks with
      | error error => rfl
      | ok idx =>
          simp only [List.getElem?_map]
          cases members.toList[idx]? <;> rfl

theorem resolveAll_contents {fork : ForkChoice} (blind : ContentBlind fork) (hemera : Hemera)
    (index : ConflictIndex) :
    resolveAll hemera { index := index.contents, fork } = resolveAll hemera { index, fork } := by
  simp only [resolveAll, ConflictIndex.contents_conflicts]
  exact congrArg (fun call => index.conflicts.mapM call)
    (funext (resolveKey_contents blind hemera index))

def LeastMember (hemera : Hemera) (signals : List Signal) (resolved : Resolved) : Prop :=
  (∃ sig ∈ signals, equivocationKey hemera sig = resolved.key ∧
    sig.contentId hemera = resolved.winner) ∧
  ∀ sig ∈ signals, equivocationKey hemera sig = resolved.key →
    ¬ sig.contentId hemera < resolved.winner

theorem lowerId_asymmetric {x y : Particle} (lower : lowerId x y = true) :
    lowerId y x = false := by
  simp only [lowerId, decide_eq_true_eq, decide_eq_false_iff_not] at *
  exact Std.not_gt_of_lt lower

theorem lowerId_transitive {x y z : Particle} (lower : lowerId x y = true)
    (notLower : lowerId z y = false) : lowerId x z = true := by
  simp only [lowerId, decide_eq_true_eq, decide_eq_false_iff_not] at *
  exact Std.lt_of_lt_of_le lower (Std.not_lt.mp notLower)

theorem minHash_least (hemera : Hemera) {members : List Signal} (view : List CyberlinkRecord)
    (nonempty : members ≠ []) :
    ∃ idx winner, minHash hemera members view = .ok idx ∧ members[idx]? = some winner ∧
      ∀ sig ∈ members, ¬ sig.contentId hemera < winner.contentId hemera := by
  cases members with
  | nil => exact absurd rfl nonempty
  | cons first rest =>
      obtain ⟨winner, found, rank⟩ :=
        scan_valid (·.contentId hemera) lowerId [first] rest 0 first rfl
      obtain ⟨firstHigher, restHigher⟩ := scan_unbeaten (·.contentId hemera) lowerId
        lowerId_asymmetric lowerId_transitive (rest.zipIdx 1) (0, first.contentId hemera)
      rw [List.length_singleton] at rank
      rw [rank] at firstHigher restHigher
      refine ⟨_, winner, rfl, found, ?_⟩
      intro sig member
      rcases List.mem_cons.mp member with rfl | later
      · exact of_decide_eq_false firstHigher
      · rw [← List.zipIdx_map_fst 1 rest] at later
        obtain ⟨entry, entryMember, rfl⟩ := List.mem_map.mp later
        exact of_decide_eq_false (restHigher entry entryMember)

theorem resolveKey_minHash_congr (hemera : Hemera) {index other : ConflictIndex}
    {key : ConflictKey} (same : index.groups[key]? = other.groups[key]?) :
    resolveKey hemera { index, fork := minHash hemera } key =
      resolveKey hemera { index := other, fork := minHash hemera } key := by
  simp only [resolveKey, ConflictIndex.group, same]
  rfl

theorem mem_members_iff {members : Std.ExtTreeMap Particle Signal} {sig : Signal} :
    sig ∈ members.toList.map Prod.snd ↔ ∃ id : Particle, members[id]? = some sig := by
  simp only [List.mem_map, Prod.exists, exists_eq_right,
    Std.ExtTreeMap.mem_toList_iff_getElem?_eq_some]

theorem resolveKey_minHash {hemera : Hemera} {signals : List Signal} {key : ConflictKey}
    (conflicting : key ∈ (ConflictIndex.observeAll hemera signals).conflicts) :
    ∃ resolved, resolveKey hemera
        { index := .observeAll hemera signals, fork := minHash hemera } key = .ok resolved ∧
      resolved.key = key ∧ LeastMember hemera signals resolved := by
  obtain ⟨members, group, size⟩ := ConflictIndex.mem_conflicts_iff.mp conflicting
  have nonempty : members.toList.map Prod.snd ≠ [] := by
    rw [← List.length_pos_iff, List.length_map, Std.ExtTreeMap.length_toList]
    omega
  obtain ⟨idx, winner, chosen, found, least⟩ := minHash_least hemera
    (ConflictIndex.observeAll hemera signals).allLinks nonempty
  obtain ⟨_, winnerStored⟩ := mem_members_iff.mp (List.mem_of_getElem? found)
  obtain ⟨winnerSeen, winnerKey, _⟩ := ConflictIndex.member_of_group group winnerStored
  refine ⟨⟨key, winner.contentId hemera⟩, ?_, rfl, ⟨winner, winnerSeen, winnerKey, rfl⟩, ?_⟩
  · simp only [resolveKey, ConflictIndex.group, group, Option.map_some, ConflictGroup.members,
      chosen, found, Outcome.expect_some, Outcome.ok_bind, Outcome.pure_eq]
  · intro sig seen here
    obtain ⟨others, stored, sameGroup, storedFound⟩ := ConflictIndex.group_of_member hemera seen
    rw [here, group] at sameGroup
    cases sameGroup
    obtain ⟨_, _, storedId⟩ := ConflictIndex.member_of_group group storedFound
    rw [← storedId]
    exact least stored (mem_members_iff.mpr ⟨_, storedFound⟩)

theorem resolveKey_key {hemera : Hemera} {engine : Reconciler} {key : ConflictKey}
    {resolved : Resolved} (ok : engine.resolveKey hemera key = .ok resolved) :
    resolved.key = key := by
  unfold resolveKey at ok
  cases group : engine.index.group key with
  | none => simp [group] at ok
  | some group' =>
      cases choice : engine.fork group'.members engine.index.allLinks with
      | error error => simp [group, choice] at ok
      | ok idx =>
          cases member : group'.members[idx]? with
          | none => simp [group, choice, member] at ok
          | some winner =>
              simp only [group, choice, member, Outcome.expect_some, Outcome.ok_bind,
                Outcome.pure_eq, Outcome.ok.injEq] at ok
              rw [← ok]

theorem lastReport_append (reported : List Resolved) (resolved : Resolved) (key : ConflictKey) :
    lastReport (reported ++ [resolved]) key =
      if resolved.key = key then some resolved else lastReport reported key := by
  simp only [lastReport, List.reverse_append, List.reverse_singleton, List.singleton_append,
    List.find?_cons]
  by_cases here : resolved.key = key <;> simp [here]

theorem lastReport_elsewhere (hemera : Hemera) (fork : ForkChoice) (signals : List Signal)
    {sig : Signal} {key : ConflictKey} (elsewhere : equivocationKey hemera sig ≠ key) :
    lastReport (run hemera fork (signals ++ [sig])).2 key =
      lastReport (run hemera fork signals).2 key := by
  rw [run_reported]
  split_ifs with company
  · split
    next resolved ok =>
      rw [lastReport_append, resolveKey_key ok, if_neg elsewhere]
    next => rw [List.append_nil]
  · rw [List.append_nil]

/-- The signals up to the last one with this key. -/
def upTo (hemera : Hemera) (key : ConflictKey) (signals : List Signal) : List Signal :=
  signals.rdropWhile fun sig => equivocationKey hemera sig ≠ key

theorem upTo_here {hemera : Hemera} (signals : List Signal) {sig : Signal} {key : ConflictKey}
    (here : equivocationKey hemera sig = key) : upTo hemera key (signals ++ [sig]) = signals ++ [sig] :=
  List.rdropWhile_concat_neg _ _ _ (by simp [here])

theorem upTo_elsewhere {hemera : Hemera} (signals : List Signal) {sig : Signal} {key : ConflictKey}
    (elsewhere : equivocationKey hemera sig ≠ key) :
    upTo hemera key (signals ++ [sig]) = upTo hemera key signals :=
  List.rdropWhile_concat_pos _ _ _ (by simp [elsewhere])

theorem groups_append (hemera : Hemera) (signals : List Signal) (sig : Signal) (key : ConflictKey) :
    (ConflictIndex.observeAll hemera (signals ++ [sig])).groups[key]? =
      if equivocationKey hemera sig = key then
        some ((ConflictIndex.observeAll hemera signals).joined hemera sig)
      else (ConflictIndex.observeAll hemera signals).groups[key]? := by
  rw [ConflictIndex.observeAll_append, ConflictIndex.observe_groups, Std.ExtTreeMap.getElem?_insert]
  simp only [Std.compare_eq_iff_eq]

/-- What comes after does not change the group of the key. -/
theorem groups_upTo (hemera : Hemera) (signals : List Signal) (key : ConflictKey) :
    (ConflictIndex.observeAll hemera (upTo hemera key signals)).groups[key]? =
      (ConflictIndex.observeAll hemera signals).groups[key]? := by
  induction signals using List.reverseRecOn with
  | nil => rfl
  | append_singleton signals sig ih =>
      by_cases here : equivocationKey hemera sig = key
      · rw [upTo_here signals here]
      · rw [upTo_elsewhere signals here, ih, groups_append, if_neg here]

/-- The strategy names a winner in every conflict. -/
def Decides (hemera : Hemera) (fork : ForkChoice) : Prop :=
  ∀ signals, ∀ key ∈ (ConflictIndex.observeAll hemera signals).conflicts, ∃ resolved,
    resolveKey hemera { index := .observeAll hemera signals, fork } key = .ok resolved

/-- After any sequence the last report on a key is the resolution at the last
signal with that key, and keys without a conflict were never reported. -/
theorem lastReport_upTo {hemera : Hemera} {fork : ForkChoice} (decides : Decides hemera fork)
    (signals : List Signal) (key : ConflictKey) :
    (key ∈ (ConflictIndex.observeAll hemera signals).conflicts →
      ∃ resolved, lastReport (run hemera fork signals).2 key = some resolved ∧
        resolveKey hemera { index := .observeAll hemera (upTo hemera key signals), fork } key =
          .ok resolved) ∧
    (key ∉ (ConflictIndex.observeAll hemera signals).conflicts →
      lastReport (run hemera fork signals).2 key = none) := by
  induction signals using List.reverseRecOn with
  | nil =>
      have none : (ConflictIndex.observeAll hemera []).conflicts = [] := by
        simp [ConflictIndex.observeAll, ConflictIndex.new, ConflictIndex.conflicts]
      rw [none]
      exact ⟨fun conflicting => absurd conflicting List.not_mem_nil, fun _ => rfl⟩
  | append_singleton signals sig ih =>
      have groups := groups_append hemera signals sig key
      by_cases here : equivocationKey hemera sig = key
      · rw [if_pos here] at groups
        have conflict : key ∈ (ConflictIndex.observeAll hemera (signals ++ [sig])).conflicts ↔
            ((ConflictIndex.observeAll hemera signals).joined hemera sig).size > 1 := by
          rw [ConflictIndex.mem_conflicts_iff, groups]
          simp
        rw [upTo_here signals here]
        by_cases company :
            ((ConflictIndex.observeAll hemera signals).joined hemera sig).size > 1
        · refine ⟨fun conflicting => ?_, fun absent => absurd (conflict.mpr company) absent⟩
          obtain ⟨resolved, ok⟩ := decides (signals ++ [sig]) key conflicting
          refine ⟨resolved, ?_, ok⟩
          rw [run_reported, if_pos company, here, ok, lastReport_append, if_pos (resolveKey_key ok)]
        · refine ⟨fun conflicting => absurd (conflict.mp conflicting) company, fun _ => ?_⟩
          rw [run_reported, if_neg company, List.append_nil]
          apply ih.2
          intro before
          obtain ⟨members, group, size⟩ := ConflictIndex.mem_conflicts_iff.mp before
          apply company
          rw [ConflictIndex.joined, here, group, Option.getD_some]
          exact lt_of_lt_of_le size Std.ExtTreeMap.size_le_size_insert
      · rw [if_neg here] at groups
        have conflict : key ∈ (ConflictIndex.observeAll hemera (signals ++ [sig])).conflicts ↔
            key ∈ (ConflictIndex.observeAll hemera signals).conflicts := by
          rw [ConflictIndex.mem_conflicts_iff, groups, ConflictIndex.mem_conflicts_iff]
        rw [conflict, lastReport_elsewhere hemera fork signals here, upTo_elsewhere signals here]
        exact ih

theorem minHash_decides (hemera : Hemera) : Decides hemera (minHash hemera) := by
  intro signals key conflicting
  obtain ⟨resolved, ok, _⟩ := resolveKey_minHash conflicting
  exact ⟨resolved, ok⟩

theorem resolved_of_forall₂ {hemera : Hemera} {engine : Reconciler} {keys : List ConflictKey}
    {all : List Resolved}
    (related : List.Forall₂ (fun key resolved => engine.resolveKey hemera key = .ok resolved)
      keys all) :
    all.map Resolved.key = keys ∧
      ∀ resolved ∈ all, engine.resolveKey hemera resolved.key = .ok resolved := by
  induction related with
  | nil => exact ⟨rfl, by simp⟩
  | @cons key resolved keys all ok _ ih =>
      obtain ⟨listed, resolves⟩ := ih
      refine ⟨by rw [List.map_cons, resolveKey_key ok, listed], ?_⟩
      intro other member
      rcases List.mem_cons.mp member with rfl | later
      · rw [resolveKey_key ok, ok]
      · exact resolves other later

theorem resolveAll_decides {hemera : Hemera} {fork : ForkChoice} (decides : Decides hemera fork)
    (signals : List Signal) :
    ∃ all, resolveAll hemera (run hemera fork signals).1 = .ok all ∧
      all.map Resolved.key = (ConflictIndex.observeAll hemera signals).conflicts ∧
      ∀ resolved ∈ all, resolveKey hemera { index := .observeAll hemera signals, fork }
        resolved.key = .ok resolved := by
  obtain ⟨all, collected, related⟩ := Outcome.mapM_ok (decides signals)
  refine ⟨all, ?_, resolved_of_forall₂ related⟩
  rw [run_engine]
  exact collected

/-- Every key has the last report that `resolve_all` makes of it at the end. -/
def TimingsAgree (hemera : Hemera) (fork : ForkChoice) (signals : List Signal) : Prop :=
  ∃ all, resolveAll hemera (run hemera fork signals).1 = .ok all ∧
    ∀ key, lastReport (run hemera fork signals).2 key = all.find? fun resolved => resolved.key = key

theorem timingsAgree_iff {hemera : Hemera} {fork : ForkChoice} (decides : Decides hemera fork)
    (signals : List Signal) :
    TimingsAgree hemera fork signals ↔
      ∀ key ∈ (ConflictIndex.observeAll hemera signals).conflicts,
        resolveKey hemera { index := .observeAll hemera (upTo hemera key signals), fork } key =
          resolveKey hemera { index := .observeAll hemera signals, fork } key := by
  obtain ⟨all, collected, listed, resolves⟩ := resolveAll_decides decides signals
  have found (key : ConflictKey) (conflicting : key ∈ (ConflictIndex.observeAll hemera signals).conflicts) :
      ∃ resolved, all.find? (fun resolved => resolved.key = key) = some resolved ∧
        resolveKey hemera { index := .observeAll hemera signals, fork } key = .ok resolved := by
    rw [← listed] at conflicting
    obtain ⟨resolved, member, here⟩ := List.mem_map.mp conflicting
    cases search : all.find? fun resolved => resolved.key = key with
    | none => exact absurd (by simpa using here) (List.find?_eq_none.mp search resolved member)
    | some first =>
        have firstKey : first.key = key := by simpa using List.find?_some search
        exact ⟨first, rfl, firstKey ▸ resolves first (List.mem_of_find?_eq_some search)⟩
  constructor
  · intro agree key conflicting
    obtain ⟨others, otherCollected, reports⟩ := agree
    cases otherCollected.symm.trans collected
    obtain ⟨last, reported, atLast⟩ := (lastReport_upTo decides signals key).1 conflicting
    obtain ⟨resolved, search, atEnd⟩ := found key conflicting
    rw [reports key, search] at reported
    cases reported
    rw [atLast, atEnd]
  · intro same
    refine ⟨all, collected, fun key => ?_⟩
    by_cases conflicting : key ∈ (ConflictIndex.observeAll hemera signals).conflicts
    · obtain ⟨last, reported, atLast⟩ := (lastReport_upTo decides signals key).1 conflicting
      obtain ⟨resolved, search, atEnd⟩ := found key conflicting
      rw [same key conflicting, atEnd] at atLast
      cases atLast
      rw [reported, search]
    · rw [(lastReport_upTo decides signals key).2 conflicting, eq_comm, List.find?_eq_none]
      intro resolved member here
      rw [← listed] at conflicting
      exact conflicting (List.mem_map.mpr ⟨resolved, member, by simpa using here⟩)

theorem resolveAll_minHash (hemera : Hemera) (signals : List Signal) :
    ∃ all, resolveAll hemera (run hemera (minHash hemera) signals).1 = .ok all ∧
      all.map Resolved.key = (ConflictIndex.observeAll hemera signals).conflicts ∧
      (∀ resolved ∈ all, LeastMember hemera signals resolved) ∧
      ∀ key, lastReport (run hemera (minHash hemera) signals).2 key =
        all.find? fun resolved => resolved.key = key := by
  have decides := minHash_decides hemera
  obtain ⟨all, collected, listed, resolves⟩ := resolveAll_decides decides signals
  obtain ⟨others, otherCollected, reports⟩ := (timingsAgree_iff decides signals).mpr fun key _ =>
    resolveKey_minHash_congr hemera (groups_upTo hemera signals key)
  cases otherCollected.symm.trans collected
  refine ⟨all, collected, listed, fun resolved member => ?_, reports⟩
  have conflicting : resolved.key ∈ (ConflictIndex.observeAll hemera signals).conflicts := by
    rw [← listed]
    exact List.mem_map_of_mem member
  obtain ⟨other, ok, _, least⟩ := resolveKey_minHash conflicting
  rw [resolves resolved member] at ok
  cases ok
  exact least

/-- Sequences with the same signals, in any order and any number, are resolved
alike.  Under `MinHash` each conflicting key goes to its least content id and
the last report on a key is the one `resolve_all` makes. -/
theorem resolution_converges (hemera : Hemera) (tru : Tru) (params : tru.FocusingParams)
    (left right : List Signal) (same : ∀ sig, sig ∈ left ↔ sig ∈ right)
    (binding : ∀ first ∈ left, ∀ second ∈ left,
      first.contentId hemera = second.contentId hemera → first.SameContent second) :
    (∀ fork, fork = minHash hemera ∨ fork = focus hemera tru params →
      resolveAll hemera (run hemera fork left).1 = resolveAll hemera (run hemera fork right).1) ∧
    ∃ all, resolveAll hemera (run hemera (minHash hemera) left).1 = .ok all ∧
      all.map Resolved.key = (ConflictIndex.observeAll hemera left).conflicts ∧
      (∀ resolved ∈ all, LeastMember hemera left resolved) ∧
      ∀ key, lastReport (run hemera (minHash hemera) left).2 key =
        all.find? fun resolved => resolved.key = key := by
  refine ⟨fun fork strategy => ?_, resolveAll_minHash hemera left⟩
  have blind : ContentBlind fork := by
    rcases strategy with rfl | rfl
    · exact minHash_contentBlind hemera
    · exact focus_contentBlind hemera tru params
  rw [run_engine, run_engine, ← resolveAll_contents blind hemera (.observeAll hemera left),
    ConflictIndex.contents_eq same binding, resolveAll_contents blind]

def shift (amount : UInt64) : Signal where
  neuron := Particle.zero
  network := selfNetwork
  links := []
  deltaPi := [(Particle.zero, amount)]
  boxMoves := []
  prev := Particle.zero
  step := 0
  height := 0

/-- An equivocation delivered in two orders, once with a repetition. -/
theorem resolution_converges_equivocation :
    (∀ sig, sig ∈ [shift 1, shift 2] ↔ sig ∈ [shift 2, shift 1, shift 2]) ∧
      (∀ first ∈ [shift 1, shift 2], ∀ second ∈ [shift 1, shift 2],
        first.contentId .truncating = second.contentId .truncating → first.SameContent second) ∧
      resolveAll .truncating (run .truncating (minHash .truncating) [shift 1, shift 2]).1 =
        resolveAll .truncating (run .truncating (minHash .truncating)
          [shift 2, shift 1, shift 2]).1 := by
  have same : ∀ sig, sig ∈ [shift 1, shift 2] ↔ sig ∈ [shift 2, shift 1, shift 2] := by
    intro sig
    simp only [List.mem_cons, List.not_mem_nil, or_false]
    tauto
  have binding : ∀ first ∈ [shift 1, shift 2], ∀ second ∈ [shift 1, shift 2],
      first.contentId .truncating = second.contentId .truncating → first.SameContent second := by
    have apart : (shift 1).contentId .truncating ≠ (shift 2).contentId .truncating := by
      decide +kernel
    intro first firstMember second secondMember ids
    rcases List.mem_pair.mp firstMember with rfl | rfl <;>
      rcases List.mem_pair.mp secondMember with rfl | rfl
    · exact .refl _
    · exact absurd ids apart
    · exact absurd ids.symm apart
    · exact .refl _
  exact ⟨same, binding,
    (resolution_converges .truncating .unit () _ _ same binding).1 _ (.inl rfl)⟩

end Reconciler

end Foculus.Conflict

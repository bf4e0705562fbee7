import Foculus.Conflict.Convergence
import Mathlib.FieldTheory.Finite.Basic

namespace Foculus.Conflict

open Chain Data

/-! When the two timings of `src/reconcile.rs` agree under `Focus`.

A group is ranked by the focus of the links indexed so far.  The report made
when its last signal came in and the one at the end rank the same members, by
the focus of two different graphs.
-/

/-- What tru documents of the order of fixed-point numbers: it is total, and
there are numbers on both sides of zero. -/
structure Ordered (tru : Tru) : Prop where
  irrefl : ∀ x, tru.lt x x = false
  trans : ∀ {x y z : Fx}, tru.lt x y = true → tru.lt y z = true → tru.lt x z = true
  total : ∀ {x y : Fx}, x ≠ y → tru.lt x y = true ∨ tru.lt y x = true
  positive : ∃ x, tru.lt 0 x = true
  negative : ∃ x, tru.lt x 0 = true

namespace Ordered

variable {tru : Tru} (ordered : Ordered tru)

include ordered

theorem asymm {x y : Fx} (below : tru.lt x y = true) : tru.lt y x = false := by
  by_contra above
  rw [Bool.not_eq_false] at above
  have loop := ordered.trans below above
  rw [ordered.irrefl] at loop
  cases loop

omit ordered in
theorem higher_iff {x y : Fx × Particle} :
    higherFocus tru x y = true ↔ tru.lt y.1 x.1 = true ∨ x.1 = y.1 ∧ x.2 < y.2 := by
  simp [higherFocus]

theorem higher_asymm {x y : Fx × Particle} (higher : higherFocus tru x y = true) :
    higherFocus tru y x = false := by
  by_contra reverse
  rw [Bool.not_eq_false, higher_iff] at reverse
  rcases higher_iff.mp higher with below | ⟨same, lower⟩
  · rcases reverse with above | ⟨same, _⟩
    · rw [ordered.asymm below] at above
      cases above
    · rw [same, ordered.irrefl] at below
      cases below
  · rcases reverse with above | ⟨_, higher⟩
    · rw [same, ordered.irrefl] at above
      cases above
    · exact Std.not_gt_of_lt lower higher

theorem higher_trans {x y z : Fx × Particle} (higher : higherFocus tru x y = true)
    (notHigher : higherFocus tru z y = false) : higherFocus tru x z = true := by
  rw [← Bool.not_eq_true, higher_iff, not_or] at notHigher
  obtain ⟨notAbove, notLower⟩ := notHigher
  rw [higher_iff] at higher ⊢
  by_cases same : z.1 = y.1
  · rw [same]
    refine higher.imp_right fun equal => ⟨equal.1, ?_⟩
    exact Std.lt_of_lt_of_le equal.2 (Std.not_lt.mp fun lower => notLower ⟨same, lower⟩)
  · have under := (ordered.total same).resolve_right notAbove
    rcases higher with below | ⟨equal, _⟩
    · exact .inl (ordered.trans under below)
    · exact .inl (equal ▸ under)

/-- Multiples by two different numbers can be put in either order. -/
theorem exists_scaled {a b : Goldilocks} (different : a ≠ b) :
    ∃ x : Goldilocks, tru.lt ⟨a * x⟩ ⟨b * x⟩ = true := by
  by_contra none_
  have never (x : Goldilocks) : tru.lt ⟨a * x⟩ ⟨b * x⟩ ≠ true := fun below => none_ ⟨x, below⟩
  have below {x : Goldilocks} (nonzero : x ≠ 0) : tru.lt ⟨b * x⟩ ⟨a * x⟩ = true := by
    have apart : (⟨a * x⟩ : Fx) ≠ ⟨b * x⟩ := fun same =>
      different (mul_right_cancel₀ nonzero (congrArg Fx.raw same))
    exact (ordered.total apart).resolve_left (never x)
  have loop {y : Fx} (cycle : tru.lt y y = true) : False := by
    rw [ordered.irrefl] at cycle
    cases cycle
  by_cases left : a = 0
  · subst left
    obtain ⟨y, above⟩ := ordered.positive
    have nonzero : y.raw ≠ 0 := fun zero => loop ((Fx.ext zero : y = 0) ▸ above)
    have under := below (div_ne_zero nonzero different.symm)
    rw [mul_div_cancel₀ _ different.symm, zero_mul] at under
    exact loop (ordered.trans under above)
  by_cases right : b = 0
  · subst right
    obtain ⟨y, under⟩ := ordered.negative
    have nonzero : y.raw ≠ 0 := fun zero => loop ((Fx.ext zero : y = 0) ▸ under)
    have above := below (div_ne_zero nonzero left)
    rw [mul_div_cancel₀ _ left, zero_mul] at above
    exact loop (ordered.trans above under)
  · -- scaling by b / a goes down, and it is the identity after P - 1 times
    have ratio : b / a ≠ 0 := div_ne_zero right left
    have step {y : Goldilocks} (nonzero : y ≠ 0) : tru.lt ⟨b / a * y⟩ ⟨y⟩ = true := by
      have down := below (div_ne_zero nonzero left)
      rwa [mul_div_cancel₀ _ left, ← mul_div_assoc, mul_div_right_comm] at down
    have down (count : Nat) : tru.lt ⟨(b / a) ^ (count + 1)⟩ ⟨1⟩ = true := by
      induction count with
      | zero => simpa using step one_ne_zero
      | succ count ih =>
          have next := step (pow_ne_zero (count + 1) ratio)
          rw [← pow_succ'] at next
          exact ordered.trans next ih
    have order : (b / a) ^ (P - 2 + 1) = 1 := ZMod.pow_card_sub_one_eq_one ratio
    have cycle := down (P - 2)
    rw [order] at cycle
    exact loop cycle

end Ordered

section Scores

/-- How many links of the signal point at the particle, in the field. -/
def aims (sig : Signal) (particle : Particle) : Goldilocks :=
  (sig.links.countP fun link => link.to = particle : Nat)

theorem score_raw (focus : List (Particle × Fx)) (sig : Signal) (support : Finset Particle)
    (targets : ∀ link ∈ sig.links, link.to ∈ support) :
    (score focus sig).raw = ∑ particle ∈ support, aims sig particle * (focusOf focus particle).raw := by
  have folded (links : List CyberlinkRecord) (start : Fx)
      (targets : ∀ link ∈ links, link.to ∈ support) :
      (links.foldl (fun total link => total + focusOf focus link.to) start).raw =
        start.raw + ∑ particle ∈ support, ((links.countP fun link => link.to = particle : Nat) : Goldilocks) *
          (focusOf focus particle).raw := by
    induction links generalizing start with
    | nil => simp
    | cons link links ih =>
        have head := targets link List.mem_cons_self
        have next : (start + focusOf focus link.to).raw = start.raw + (focusOf focus link.to).raw := rfl
        rw [List.foldl_cons, ih _ fun other member => targets other (List.mem_cons_of_mem link member),
          next, add_assoc]
        congr 1
        simp only [List.countP_cons, decide_eq_true_eq, Nat.cast_add, Nat.cast_ite, Nat.cast_one,
          Nat.cast_zero, add_mul, ite_mul, one_mul, zero_mul, Finset.sum_add_distrib,
          Finset.sum_ite_eq, head, if_true, add_comm]
  have start : (0 : Fx).raw = 0 := rfl
  rw [score, folded sig.links 0 targets, start, zero_add]
  rfl

/-- The particles that links of a list point at. -/
def targetsOf (links : List CyberlinkRecord) : Finset Particle :=
  (links.map fun link => link.to).toFinset

theorem mem_targetsOf {links : List CyberlinkRecord} {link : CyberlinkRecord} (member : link ∈ links) :
    link.to ∈ targetsOf links := List.mem_toFinset.mpr (List.mem_map_of_mem member)

theorem score_congr {first second : Signal} (same : ∀ particle, aims first particle = aims second particle)
    (focus : List (Particle × Fx)) : score focus first = score focus second := by
  apply Fx.ext
  rw [score_raw focus first (targetsOf (first.links ++ second.links)) fun _ member =>
      mem_targetsOf (List.mem_append_left _ member),
    score_raw focus second (targetsOf (first.links ++ second.links)) fun _ member =>
      mem_targetsOf (List.mem_append_right _ member)]
  exact Finset.sum_congr rfl fun particle _ => by rw [same]

theorem score_single (particle : Particle) (value : Fx) (sig : Signal) :
    score [(particle, value)] sig = ⟨aims sig particle * value.raw⟩ := by
  apply Fx.ext
  rw [score_raw _ sig (insert particle (targetsOf sig.links)) fun _ member =>
      Finset.mem_insert_of_mem (mem_targetsOf member),
    Finset.sum_eq_single_of_mem particle (Finset.mem_insert_self _ _)]
  · simp [focusOf]
  · intro other _ different
    have absent : focusOf [(particle, value)] other = 0 := by simp [focusOf, Ne.symm different]
    rw [absent]
    exact mul_zero _

theorem score_nil (sig : Signal) : score [] sig = 0 := by
  apply Fx.ext
  rw [score_raw [] sig (targetsOf sig.links) fun _ member => mem_targetsOf member]
  exact Finset.sum_eq_zero fun particle _ => mul_zero _

end Scores

section Ranking

variable (hemera : Hemera) (tru : Tru)

def rank (focus : List (Particle × Fx)) (sig : Signal) : Fx × Particle :=
  (score focus sig, sig.contentId hemera)

/-- No member outranks the winner. -/
structure Best (focus : List (Particle × Fx)) (members : List Signal) (winner : Signal) : Prop where
  member : winner ∈ members
  unbeaten : ∀ sig ∈ members, higherFocus tru (rank hemera focus sig) (rank hemera focus winner) = false

/-- The links that are ranked on, as `Focus` passes them on. -/
def staked (view : List CyberlinkRecord) : List Link :=
  view.map fun link => tru.stake link.from link.to link.amount.toNat

/-- The focus of a graph, zero everywhere where there is no graph. -/
def focusing (params : tru.FocusingParams) (links : List Link) : List (Particle × Fx) :=
  if links.isEmpty then [] else tru.computeFocusing links tru.noContext params

variable {hemera} {tru} {members : List Signal} {result : List (Particle × Fx)}
  (ordered : Ordered tru)

include ordered

theorem focus_best (params : tru.FocusingParams) (view : List CyberlinkRecord)
    (nonempty : members ≠ []) :
    ∃ idx winner, focus hemera tru params members view = .ok idx ∧ members[idx]? = some winner ∧
      Best hemera tru (focusing tru params (staked tru view)) members winner := by
  match members with
  | [] => exact absurd rfl nonempty
  | [only] =>
      refine ⟨0, only, rfl, rfl, List.mem_singleton_self only, ?_⟩
      intro sig member
      rw [List.mem_singleton.mp member, higherFocus, ordered.irrefl]
      simp
  | first :: second :: rest =>
      by_cases empty : (staked tru view).isEmpty
      · obtain ⟨idx, winner, chosen, found, least⟩ := Reconciler.minHash_least hemera view nonempty
        refine ⟨idx, winner, ?_, found, List.mem_of_getElem? found, ?_⟩
        · rw [← chosen]
          exact if_pos empty
        · intro sig member
          rw [focusing, if_pos empty, higherFocus, rank, rank, score_nil, score_nil, ordered.irrefl]
          simp [least sig member]
      · have ranks : focusing tru params (staked tru view) =
            tru.computeFocusing (staked tru view) tru.noContext params := if_neg empty
        obtain ⟨winner, found, best⟩ := scan_valid (rank hemera (focusing tru params (staked tru view)))
          (higherFocus tru) [first] (second :: rest) 0 first rfl
        obtain ⟨firstUnder, restUnder⟩ := scan_unbeaten
          (rank hemera (focusing tru params (staked tru view))) (higherFocus tru)
          ordered.higher_asymm ordered.higher_trans ((second :: rest).zipIdx 1)
          (0, rank hemera (focusing tru params (staked tru view)) first)
        rw [List.length_singleton] at best found
        rw [best] at firstUnder restUnder
        refine ⟨_, winner, ?_, found, List.mem_of_getElem? found, ?_⟩
        · rw [ranks]
          exact if_neg empty
        · intro sig member
          rcases List.mem_cons.mp member with rfl | later
          · exact firstUnder
          · rw [← List.zipIdx_map_fst 1 (second :: rest)] at later
            obtain ⟨entry, entryMember, rfl⟩ := List.mem_map.mp later
            exact restUnder entry entryMember

theorem Best.unique {left right : Signal} (leftBest : Best hemera tru result members left)
    (rightBest : Best hemera tru result members right) :
    left.contentId hemera = right.contentId hemera := by
  have below := leftBest.unbeaten right rightBest.member
  have above := rightBest.unbeaten left leftBest.member
  rw [← Bool.not_eq_true, Ordered.higher_iff, not_or] at below above
  have alike : score result left = score result right := by
    by_contra different
    rcases ordered.total different with lower | higher
    · exact below.1 lower
    · exact above.1 higher
  have notBelow : ¬ right.contentId hemera < left.contentId hemera := fun lower =>
    below.2 ⟨alike.symm, lower⟩
  have notAbove : ¬ left.contentId hemera < right.contentId hemera := fun lower =>
    above.2 ⟨alike, lower⟩
  exact Std.le_antisymm (Std.not_lt.mp notBelow) (Std.not_lt.mp notAbove)

omit ordered in
/-- Where all members score alike the lowest content id wins. -/
theorem Best.lowest {winner sig : Signal} (best : Best hemera tru result members winner)
    (alike : score result sig = score result winner) (member : sig ∈ members) :
    ¬ sig.contentId hemera < winner.contentId hemera := by
  intro lower
  have unbeaten := best.unbeaten sig member
  rw [← Bool.not_eq_true, Ordered.higher_iff, not_or] at unbeaten
  exact unbeaten.2 ⟨alike, lower⟩

omit ordered in
theorem members_nonempty {group : Std.ExtTreeMap Particle Signal} (size : group.size > 1) :
    group.toList.map Prod.snd ≠ [] := by
  rw [← List.length_pos_iff, List.length_map, Std.ExtTreeMap.length_toList]
  omega

theorem resolveKey_focus (params : tru.FocusingParams) {index : ConflictIndex} {key : ConflictKey}
    {group : Std.ExtTreeMap Particle Signal} (found : index.groups[key]? = some group)
    (nonempty : group.toList.map Prod.snd ≠ []) :
    ∃ winner, Reconciler.resolveKey hemera { index, fork := focus hemera tru params } key =
        .ok ⟨key, winner.contentId hemera⟩ ∧
      Best hemera tru (focusing tru params (staked tru index.allLinks)) (group.toList.map Prod.snd)
        winner := by
  obtain ⟨idx, winner, chosen, member, best⟩ := focus_best ordered params index.allLinks
    nonempty
  refine ⟨winner, ?_, best⟩
  simp only [Reconciler.resolveKey, ConflictIndex.group, found, Option.map_some,
    ConflictGroup.members, chosen, member, Outcome.expect_some, Outcome.ok_bind, Outcome.pure_eq]

end Ranking

section Timings

variable {hemera : Hemera} {tru : Tru} {members : List Signal}

/-- The crate with another focusing function. -/
def withFocusing (tru : Tru)
    (compute : List Link → tru.Context → tru.FocusingParams → List (Particle × Fx)) : Tru :=
  { tru with computeFocusing := compute }

theorem withFocusing_ordered (ordered : Ordered tru)
    (compute : List Link → tru.Context → tru.FocusingParams → List (Particle × Fx)) :
    Ordered (withFocusing tru compute) :=
  ⟨ordered.irrefl, ordered.trans, ordered.total, ordered.positive, ordered.negative⟩

/-- The ranks are compared by the same order. -/
theorem Best.order {compute : List Link → tru.Context → tru.FocusingParams → List (Particle × Fx)}
    {result : List (Particle × Fx)} {winner : Signal}
    (best : Best hemera (withFocusing tru compute) result members winner) :
    Best hemera tru result members winner := ⟨best.member, best.unbeaten⟩

/-- All members point equally often at every particle. -/
def Undirected (members : List Signal) : Prop :=
  ∀ first ∈ members, ∀ second ∈ members, ∀ particle, aims first particle = aims second particle

/-- Members that are alike have the same winner under every focus. -/
theorem Best.alike {left right : Signal} {result other : List (Particle × Fx)}
    (undirected : Undirected members) (leftBest : Best hemera tru result members left)
    (rightBest : Best hemera tru other members right) :
    left.contentId hemera = right.contentId hemera := by
  have scores (focus : List (Particle × Fx)) := score_congr
    (undirected left leftBest.member right rightBest.member) focus
  exact Std.le_antisymm
    (Std.not_lt.mp (leftBest.lowest (scores result).symm rightBest.member))
    (Std.not_lt.mp (rightBest.lowest (scores other) leftBest.member))

/-- Members that differ have a focus under which one of them does not win. -/
theorem exists_overtaking (ordered : Ordered tru) (directed : ¬ Undirected members)
    {lowest : Signal} (told : ∀ sig ∈ members, sig.contentId hemera = lowest.contentId hemera → sig = lowest) :
    ∃ result, ∀ winner, Best hemera tru result members winner →
      winner.contentId hemera ≠ lowest.contentId hemera := by
  have rival : ∃ sig ∈ members, ∃ particle, aims lowest particle ≠ aims sig particle := by
    by_contra none_
    have all (sig : Signal) (inside : sig ∈ members) (particle : Particle) :
        aims lowest particle = aims sig particle :=
      not_not.mp fun different => none_ ⟨sig, inside, particle, different⟩
    exact directed fun first firstMember second secondMember particle =>
      (all first firstMember particle).symm.trans (all second secondMember particle)
  obtain ⟨sig, inside, particle, different⟩ := rival
  obtain ⟨x, below⟩ := ordered.exists_scaled different
  refine ⟨[(particle, ⟨x⟩)], fun winner best same => ?_⟩
  have unbeaten := best.unbeaten sig inside
  rw [told winner best.member same, ← Bool.not_eq_true, Ordered.higher_iff, not_or] at unbeaten
  refine unbeaten.1 ?_
  rw [rank, rank, score_single, score_single]
  exact below

/-- The graph that the index ranks on. -/
def graphOf (tru : Tru) (hemera : Hemera) (signals : List Signal) : List Link :=
  staked tru (ConflictIndex.observeAll hemera signals).allLinks

theorem focus_decides (hemera : Hemera) (ordered : Ordered tru) (params : tru.FocusingParams) :
    Reconciler.Decides hemera (focus hemera tru params) := by
  intro signals key conflicting
  obtain ⟨group, found, size⟩ := ConflictIndex.mem_conflicts_iff.mp conflicting
  obtain ⟨winner, resolved, _⟩ := resolveKey_focus ordered params found
    (members_nonempty size)
  exact ⟨_, resolved⟩

/-- Two graphs can be given any focus and the zero focus, in one of the two ways. -/
theorem exists_separating (tru : Tru) (params : tru.FocusingParams) {left right : List Link}
    (different : left ≠ right) (result : List (Particle × Fx)) :
    ∃ compute,
      focusing (withFocusing tru compute) params left = result ∧
          focusing (withFocusing tru compute) params right = [] ∨
        focusing (withFocusing tru compute) params left = [] ∧
          focusing (withFocusing tru compute) params right = result := by
  cases left with
  | nil =>
      refine ⟨fun _ _ _ => result, .inr ⟨rfl, if_neg ?_⟩⟩
      rw [List.isEmpty_iff]
      exact different.symm
  | cons link links =>
      refine ⟨fun graph _ _ => if graph = link :: links then result else [], .inl ⟨if_pos rfl, ?_⟩⟩
      by_cases empty : right.isEmpty
      · exact if_pos empty
      · exact (if_neg empty).trans (if_neg different.symm)

theorem told_apart {signals : List Signal} {key : ConflictKey} {group : Std.ExtTreeMap Particle Signal}
    (found : (ConflictIndex.observeAll hemera signals).groups[key]? = some group) {first second : Signal}
    (firstMember : first ∈ group.toList.map Prod.snd)
    (secondMember : second ∈ group.toList.map Prod.snd)
    (same : first.contentId hemera = second.contentId hemera) : first = second := by
  obtain ⟨_, firstFound⟩ := Reconciler.mem_members_iff.mp firstMember
  obtain ⟨_, secondFound⟩ := Reconciler.mem_members_iff.mp secondMember
  obtain ⟨_, _, rfl⟩ := ConflictIndex.member_of_group found firstFound
  obtain ⟨_, _, rfl⟩ := ConflictIndex.member_of_group found secondFound
  rw [same, secondFound] at firstFound
  exact (Option.some.inj firstFound).symm

/-- Under `Focus` the two timings agree, whatever the focusing function, exactly
if after the last signal of every conflict the graph stays as it is, or the
members of that conflict point equally often at every particle. -/
theorem focus_timingsAgree_iff (hemera : Hemera) (ordered : Ordered tru)
    (params : tru.FocusingParams) (signals : List Signal) :
    (∀ compute, Reconciler.TimingsAgree hemera
        (focus hemera (withFocusing tru compute) params) signals) ↔
      ∀ key group, (ConflictIndex.observeAll hemera signals).group key = some group →
        group.len > 1 →
        graphOf tru hemera (Reconciler.upTo hemera key signals) = graphOf tru hemera signals ∨
          Undirected group.members := by
  constructor
  · intro agree key group found size
    obtain ⟨members, here, rfl⟩ := Option.map_eq_some_iff.mp found
    have before := (Reconciler.groups_upTo hemera signals key).trans here
    have nonempty := members_nonempty size
    by_contra apart
    obtain ⟨different, directed⟩ := not_or.mp apart
    obtain ⟨_, lowest, _, _, lowestBest⟩ := focus_best ordered params [] nonempty
    obtain ⟨result, overtakes⟩ := exists_overtaking ordered directed
      fun sig member same => told_apart here member lowestBest.member same
    obtain ⟨compute, focused⟩ := exists_separating tru params different result
    have other := withFocusing_ordered ordered compute
    obtain ⟨early, earlyResolved, earlyBest⟩ := resolveKey_focus other params before nonempty
    obtain ⟨late, lateResolved, lateBest⟩ := resolveKey_focus other params here nonempty
    have same := (Reconciler.timingsAgree_iff (focus_decides hemera other params) signals).mp
      (agree compute) key (ConflictIndex.mem_conflicts_iff.mpr ⟨members, here, size⟩)
    rw [earlyResolved, lateResolved] at same
    simp only [Outcome.ok.injEq, Resolved.mk.injEq, true_and] at same
    have earlyHere : Best hemera tru (focusing (withFocusing tru compute) params
        (graphOf tru hemera (Reconciler.upTo hemera key signals))) (members.toList.map Prod.snd) early :=
      earlyBest.order
    have lateHere : Best hemera tru (focusing (withFocusing tru compute) params
        (graphOf tru hemera signals)) (members.toList.map Prod.snd) late := lateBest.order
    have lowestHere : Best hemera tru [] (members.toList.map Prod.snd) lowest := lowestBest
    -- the focus that overtakes is used at one of the two times, no focus at the other
    rcases focused with ⟨first, second⟩ | ⟨first, second⟩
    · rw [first] at earlyHere
      rw [second] at lateHere
      exact overtakes early earlyHere (same.trans (Best.unique ordered lateHere lowestHere))
    · rw [first] at earlyHere
      rw [second] at lateHere
      exact overtakes late lateHere (same.symm.trans (Best.unique ordered earlyHere lowestHere))
  · intro condition compute
    have other := withFocusing_ordered ordered compute
    rw [Reconciler.timingsAgree_iff (focus_decides hemera other params)]
    intro key conflicting
    obtain ⟨members, here, size⟩ := ConflictIndex.mem_conflicts_iff.mp conflicting
    have before := (Reconciler.groups_upTo hemera signals key).trans here
    have nonempty := members_nonempty size
    obtain ⟨early, earlyResolved, earlyBest⟩ := resolveKey_focus other params before nonempty
    obtain ⟨late, lateResolved, lateBest⟩ := resolveKey_focus other params here nonempty
    have same : early.contentId hemera = late.contentId hemera := by
      rcases condition key ⟨key, members⟩ (by rw [ConflictIndex.group, here]; rfl) size with
        graphs | undirected
      · have focused := congrArg (focusing (withFocusing tru compute) params) graphs
        exact Best.unique other (focused ▸ earlyBest) lateBest
      · exact Best.alike undirected earlyBest lateBest
    rw [earlyResolved, lateResolved, same]

end Timings

section Samples

def signedValue (value : Fx) : Int :=
  if value.raw.asU64 ≤ P / 2 then value.raw.asU64 else value.raw.asU64 - P

/-- A stand-in with signed numbers, under which a particle has the focus of the
amounts that point at it. -/
def signedTru : Tru :=
  { Tru.unit with
    lt := fun left right => decide (signedValue left < signedValue right)
    computeFocusing := fun links _ _ => links.map fun link =>
      (link.to, ⟨.new ((links.filter fun other => other.to = link.to).map Link.amount).sum⟩) }

theorem signedTru_ordered : Ordered signedTru where
  irrefl x := by simp [signedTru]
  trans := by
    intro x y z below above
    simp only [signedTru, decide_eq_true_eq] at below above ⊢
    exact Int.lt_trans below above
  total := by
    intro x y different
    simp only [signedTru, decide_eq_true_eq]
    refine Int.lt_or_gt_of_ne fun same => different ?_
    have xBound : x.raw.asU64 < P := ZMod.val_lt x.raw
    have yBound : y.raw.asU64 < P := ZMod.val_lt y.raw
    have values : x.raw.asU64 = y.raw.asU64 := by
      unfold signedValue at same
      split at same <;> split at same <;> omega
    exact Fx.ext (ZMod.val_injective P values)
  positive := ⟨⟨1⟩, by decide +kernel⟩
  negative := ⟨⟨-1⟩, by decide +kernel⟩

def endorse (neuron target : UInt8) (amount : UInt64) : Signal where
  neuron := Vector.replicate 32 neuron
  network := selfNetwork
  links := [
    { neuron := Vector.replicate 32 neuron
      «from» := Particle.zero
      «to» := Particle.padded [target]
      token := Particle.zero
      amount := amount
      valence := 1
      height := 0 }]
  deltaPi := []
  boxMoves := []
  prev := Particle.zero
  step := 0
  height := 0

/-- Two signals of one neuron at one step, then one of another neuron. -/
def endorsements : List Signal := [endorse 1 10 100, endorse 1 20 50, endorse 2 20 70]

/-- The last report names the first signal, `resolve_all` the second: the third,
which is in no conflict, moved the focus to where the second points. -/
theorem timings_disagree :
    ¬ Reconciler.TimingsAgree .truncating (focus .truncating signedTru ()) endorsements := by
  intro agree
  obtain ⟨all, collected, reports⟩ := agree
  have resolved : Reconciler.resolveAll .truncating
      (Reconciler.run .truncating (focus .truncating signedTru ()) endorsements).1 =
      .ok [⟨equivocationKey .truncating (endorse 1 10 100), (endorse 1 20 50).contentId .truncating⟩] := by
    rw [Reconciler.run_engine]
    decide +kernel
  cases resolved.symm.trans collected
  exact absurd (reports (equivocationKey .truncating (endorse 1 10 100))) (by decide +kernel)

theorem focus_timingsAgree_iff_sample :
    (∀ compute, Reconciler.TimingsAgree .truncating
        (focus .truncating (withFocusing signedTru compute) ()) endorsements) ↔
      ∀ key group, (ConflictIndex.observeAll .truncating endorsements).group key = some group →
        group.len > 1 →
        graphOf signedTru .truncating (Reconciler.upTo .truncating key endorsements) =
            graphOf signedTru .truncating endorsements ∨
          Undirected group.members :=
  focus_timingsAgree_iff .truncating signedTru_ordered () endorsements

end Samples

end Foculus.Conflict

import Foculus.Data.Shapley
import Foculus.Data.SwapListing
import Foculus.Settlement.MarginalCert
import Mathlib.Algebra.BigOperators.Fin
import Mathlib.Data.List.Permutation

namespace Foculus.Settlement

open Data

/-! # The exact division of a cluster's value

`shapley_exact` adds the marginals of every ordering up and divides by their number.
-/

/-- `go`, when the last `left` places are still to be filled. -/
def permutations.go {n : Nat} : (left : Nat) → left ≤ n →
    Vector (Fin n) n × List (List (Fin n)) → Vector (Fin n) n × List (List (Fin n))
  | 0, _, (a, out) => (a, out ++ [a.toList])
  | left + 1, bound, state =>
      ((List.finRange n).drop (n - (left + 1))).foldl (fun (a, out) (i : Fin n) =>
        let (a, out) := go left (Nat.le_of_succ_le bound)
          (a.swap (n - (left + 1)) i (first_late_place bound) i.isLt, out)
        (a.swap (n - (left + 1)) i (first_late_place bound) i.isLt, out)) state

def permutations (n : Nat) : List (List (Fin n)) :=
  (permutations.go n le_rfl (Vector.ofFn id, [])).2

theorem permutations.go_eq {n left : Nat} (bound : left ≤ n) (a : Vector (Fin n) n)
    (out : List (List (Fin n))) :
    permutations.go left bound (a, out) = (a, out ++ arrangements left bound a) := by
  induction left generalizing a out with
  | zero => rfl
  | succ left ih =>
      rw [permutations.go, arrangements]
      generalize (List.finRange n).drop (n - (left + 1)) = places
      induction places generalizing out with
      | nil => rw [List.foldl_nil, List.flatMap_nil, List.append_nil]
      | cons i rest rests =>
          rw [List.foldl_cons, List.flatMap_cons, ← List.append_assoc, ← rests]
          simp only [ih, Vector.swap_swap]

theorem permutations_eq (n : Nat) :
    permutations n = arrangements n le_rfl (Vector.ofFn id) := by
  rw [permutations, permutations.go_eq, List.nil_append]

theorem toList_ofFn_id (n : Nat) : (Vector.ofFn (id : Fin n → Fin n)).toList = List.finRange n := by
  rw [Vector.toList_ofFn, List.ofFn_id]

theorem nodup_permutations (n : Nat) : (permutations n).Nodup := by
  rw [permutations_eq]
  exact nodup_arrangements _ (toList_ofFn_id n ▸ List.nodup_finRange n)

theorem mem_permutations {n : Nat} {order : List (Fin n)} :
    order ∈ permutations n ↔ order.Perm (List.finRange n) := by
  rw [permutations_eq, mem_arrangements_all (toList_ofFn_id n ▸ List.nodup_finRange n),
    toList_ofFn_id]

theorem length_permutations (n : Nat) : (permutations n).length = n.factorial := by
  have listed : (permutations n).Perm (List.finRange n).permutations := by
    rw [List.perm_ext_iff_of_nodup (nodup_permutations n)
      (List.nodup_permutations _ (List.nodup_finRange n))]
    intro order
    rw [mem_permutations, List.mem_permutations]
  rw [listed.length_eq, List.length_permutations, List.length_finRange]

/-- Renaming the contributors carries every ordering to an ordering. -/
theorem permutations_map_perm {n : Nat} (rename : Fin n ≃ Fin n) :
    ((permutations n).map (List.map rename)).Perm (permutations n) := by
  rw [List.perm_ext_iff_of_nodup
    ((nodup_permutations n).map (List.map_injective_iff.mpr rename.injective))
    (nodup_permutations n)]
  intro order
  have everyone : ((List.finRange n).map rename).Perm (List.finRange n) := by
    rw [List.perm_ext_iff_of_nodup ((List.nodup_finRange n).map rename.injective)
      (List.nodup_finRange n)]
    intro i
    rw [List.mem_map]
    exact iff_of_true ⟨rename.symm i, List.mem_finRange _, rename.apply_symm_apply i⟩
      (List.mem_finRange i)
  rw [List.mem_map, mem_permutations]
  constructor
  · rintro ⟨source, listed, rfl⟩
    exact ((mem_permutations.mp listed).map rename).trans everyone
  · intro perm
    refine ⟨order.map rename.symm, mem_permutations.mpr ?_, by simp [Function.comp_def]⟩
    simpa [Function.comp_def] using (perm.trans everyone.symm).map rename.symm

section Division

variable (tru : Tru) (base : List Link) (contribs : List Contribution) (ctx : tru.Context)
  (params : tru.FocusingParams)

/-- `acc` of `shapley_exact`. -/
def shapleySums : List Fx :=
  (permutations contribs.length).foldl
    (fun acc order => List.zipWith (· + ·) acc (marginals tru base ctx params contribs order))
    (List.replicate contribs.length 0)

def shapleyExact : List (Particle × Fx) :=
  if contribs.length = 0 then []
  else
    let inv := tru.div Fx.one
      (tru.fromInt (UInt64.ofNat (permutations contribs.length).length).toInt64.toInt)
    List.zipWith (fun contrib sum => (contrib.neuron, tru.mul sum inv)) contribs
      (shapleySums tru base contribs ctx params)

/-- The impulse of a batch depends on which links it has, not on their order. -/
def OrderFree (tru : Tru) (base : List Link) (ctx : tru.Context) (params : tru.FocusingParams) :
    Prop :=
  ∀ left right : List Link, left.Perm right →
    tru.impulse base left ctx params (tru.epsilon params) =
      tru.impulse base right ctx params (tru.epsilon params)

/-- The contributions at the positions of a coalition. -/
def coalition (members : Finset (Fin contribs.length)) : List Contribution :=
  ((List.finRange contribs.length).filter (· ∈ members)).map contribs.get

/-- `v★` as a game between the positions of the contributors. -/
def coalitionValue (members : Finset (Fin contribs.length)) : Fx :=
  value tru base ctx params (coalition contribs members)

end Division

section Marginals

variable {tru : Tru} {base : List Link} {contribs : List Contribution} {ctx : tru.Context}
  {params : tru.FocusingParams}

theorem coalition_insert {members : Finset (Fin contribs.length)} {i : Fin contribs.length}
    (absent : i ∉ members) : (coalition contribs members ++ [contribs.get i]).Perm
      (coalition contribs (insert i members)) := by
  have joined : ((List.finRange contribs.length).filter (· ∈ members) ++ [i]).Perm
      ((List.finRange contribs.length).filter (· ∈ insert i members)) := by
    rw [List.perm_ext_iff_of_nodup]
    · intro j
      simp [or_comm]
    · refine ((List.nodup_finRange _).filter _).append (List.nodup_singleton i) ?_
      simpa [List.disjoint_singleton] using absent
    · exact (List.nodup_finRange _).filter _
  simpa [coalition] using joined.map contribs.get

theorem coalition_univ : coalition contribs Finset.univ = contribs := by
  simp [coalition, List.map_get_finRange]

theorem coalition_empty : coalition contribs ∅ = [] := by
  simp [coalition]

theorem coalitionValue_empty (idle : tru.impulse base [] ctx params (tru.epsilon params) = 0) :
    coalitionValue tru base contribs ctx params ∅ = 0 := by
  rw [coalitionValue, coalition_empty]
  exact idle

theorem value_perm (batched : OrderFree tru base ctx params) {left right : List Contribution}
    (perm : left.Perm right) :
    value tru base ctx params left = value tru base ctx params right :=
  batched _ _ (perm.flatMap_right _)

/-- A contributor without links adds nothing to any coalition. -/
theorem coalitionValue_linkless (batched : OrderFree tru base ctx params)
    {i : Fin contribs.length} {members : Finset (Fin contribs.length)}
    (linkless : (contribs.get i).links = []) (absent : i ∉ members) :
    coalitionValue tru base contribs ctx params (insert i members) =
      coalitionValue tru base contribs ctx params members := by
  rw [coalitionValue, ← value_perm batched (coalition_insert absent), coalitionValue, value, value,
    List.flatMap_append, List.flatMap_singleton, Contribution.weighted, linkless, List.map_nil,
    List.append_nil]

/-- Along an ordering of contributors that did not come before, the loop of `marginals`
writes each one's share in the game. -/
theorem marginalsFrom_getElem? (batched : OrderFree tru base ctx params)
    {order : List (Fin contribs.length)} {before : Finset (Fin contribs.length)}
    {visited : List Contribution} {out : List Fx} {i : Fin contribs.length}
    (distinct : order.Nodup) (fresh : ∀ j ∈ order, j ∉ before)
    (gathered : visited.Perm (coalition contribs before)) (room : i.val < out.length) :
    (marginalsFrom tru base ctx params contribs order visited
        (coalitionValue tru base contribs ctx params before) out)[i.val]? =
      if i ∈ order then
        some (share (coalitionValue tru base contribs ctx params) before order i)
      else out[i.val]? := by
  induction order generalizing before visited out with
  | nil => rfl
  | cons j rest ih =>
      obtain ⟨once, distinct⟩ := List.nodup_cons.mp distinct
      have absent : j ∉ before := fresh j (.head _)
      have joined : (visited ++ [contribs.get j]).Perm (coalition contribs (insert j before)) :=
        (gathered.append_right _).trans (coalition_insert absent)
      have worth : value tru base ctx params (visited ++ [contribs.get j]) =
          coalitionValue tru base contribs ctx params (insert j before) := value_perm batched joined
      have later : ∀ other ∈ rest, other ∉ insert j before := by
        intro other member
        rw [Finset.mem_insert, not_or]
        exact ⟨fun same => once (same ▸ member), fresh other (.tail _ member)⟩
      rw [marginalsFrom, worth, ih distinct later joined (by rwa [List.length_set]), share]
      by_cases here : j = i
      · subst here
        rw [if_neg once, if_pos (.head _), if_pos rfl, List.getElem?_set_self room]
      · rw [List.getElem?_set_ne fun same => here (Fin.ext same), if_neg here]
        simp only [List.mem_cons, Ne.symm here, false_or]

theorem marginals_eq_share (batched : OrderFree tru base ctx params)
    (idle : tru.impulse base [] ctx params (tru.epsilon params) = 0)
    {order : List (Fin contribs.length)} (everyone : order.Perm (List.finRange contribs.length)) :
    marginals tru base ctx params contribs order =
      List.ofFn (share (coalitionValue tru base contribs ctx params) ∅ order) := by
  apply List.ext_getElem?
  intro place
  by_cases inside : place < contribs.length
  · have room : place < (List.replicate contribs.length (0 : Fx)).length := by
      rwa [List.length_replicate]
    have found := marginalsFrom_getElem? (i := ⟨place, inside⟩) batched
      (everyone.nodup_iff.mpr (List.nodup_finRange _)) (fun j _ => Finset.notMem_empty j)
      (.of_eq coalition_empty.symm) room
    rw [if_pos (everyone.mem_iff.mpr (List.mem_finRange _)), coalitionValue_empty idle] at found
    rw [marginals, found, List.getElem?_ofFn, dif_pos inside]
  · rw [List.getElem?_eq_none (by rw [marginals_length]; omega),
      List.getElem?_eq_none (by rw [List.length_ofFn]; omega)]

theorem zipWith_ofFn {n : Nat} (left right : Fin n → Fx) :
    List.zipWith (· + ·) (List.ofFn left) (List.ofFn right) = List.ofFn (left + right) := by
  apply List.ext_getElem
  · simp
  · intro place leftBound rightBound
    simp

theorem shapleySums_eq (batched : OrderFree tru base ctx params)
    (idle : tru.impulse base [] ctx params (tru.epsilon params) = 0) :
    shapleySums tru base contribs ctx params =
      List.ofFn (shareSum (coalitionValue tru base contribs ctx params)
        (permutations contribs.length)) := by
  have summed : ∀ (orders : List (List (Fin contribs.length))) (acc : Fin contribs.length → Fx),
      (∀ order ∈ orders, order.Perm (List.finRange contribs.length)) →
      orders.foldl (fun acc order =>
          List.zipWith (· + ·) acc (marginals tru base ctx params contribs order)) (List.ofFn acc) =
        List.ofFn (acc + shareSum (coalitionValue tru base contribs ctx params) orders) := by
    intro orders
    induction orders with
    | nil =>
        intro acc _
        have none : shareSum (coalitionValue tru base contribs ctx params) [] = 0 := rfl
        rw [none, add_zero, List.foldl_nil]
    | cons order rest ih =>
        intro acc everyone
        rw [List.foldl_cons, marginals_eq_share batched idle (everyone order (.head _)),
          zipWith_ofFn, ih _ fun later member => everyone later (.tail _ member), add_assoc]
        rfl
  have zeros : List.replicate contribs.length (0 : Fx) = List.ofFn (0 : Fin contribs.length → Fx) :=
    (List.ofFn_const _ _).symm
  rw [shapleySums, zeros, summed _ _ fun _ => mem_permutations.mp, zero_add]

end Marginals

/-- The sums of `shapley_exact` are efficient, treat equals alike and give nothing to a
contributor that adds nothing. -/
theorem shapley_axioms (tru : Tru) (base : List Link) (contribs : List Contribution)
    (ctx : tru.Context) (params : tru.FocusingParams) (batched : OrderFree tru base ctx params)
    (idle : tru.impulse base [] ctx params (tru.epsilon params) = 0) :
    (∀ n, (permutations n).Nodup ∧
      ∀ order, order ∈ permutations n ↔ order.Perm (List.finRange n)) ∧
    (shapleySums tru base contribs ctx params).length = contribs.length ∧
    (shapleySums tru base contribs ctx params).sum =
      contribs.length.factorial • value tru base ctx params contribs ∧
    (∀ i j : Fin contribs.length,
      (∀ members, i ∉ members → j ∉ members →
        coalitionValue tru base contribs ctx params (insert i members) =
          coalitionValue tru base contribs ctx params (insert j members)) →
      (shapleySums tru base contribs ctx params)[i.val]? =
        (shapleySums tru base contribs ctx params)[j.val]?) ∧
    ∀ i : Fin contribs.length,
      (∀ members, i ∉ members → coalitionValue tru base contribs ctx params (insert i members) =
        coalitionValue tru base contribs ctx params members) →
      (shapleySums tru base contribs ctx params)[i.val]? = some 0 := by
  have sums : shapleySums tru base contribs ctx params = _ := shapleySums_eq batched idle
  refine ⟨fun n => ⟨nodup_permutations n, fun _ => mem_permutations⟩, ?_, ?_, ?_, ?_⟩
  · rw [sums, List.length_ofFn]
  · have complete : ∀ order ∈ permutations contribs.length, order.Nodup ∧ ∀ i, i ∈ order := by
      intro order listed
      have everyone := mem_permutations.mp listed
      exact ⟨everyone.nodup_iff.mpr (List.nodup_finRange _),
        fun i => everyone.mem_iff.mpr (List.mem_finRange i)⟩
    rw [sums, List.sum_ofFn, shareSum_efficient complete, length_permutations,
      coalitionValue_empty idle, sub_zero, coalitionValue, coalition_univ]
  · intro i j alike
    rw [sums, List.getElem?_ofFn, List.getElem?_ofFn, dif_pos i.isLt, dif_pos j.isLt]
    exact congrArg some (shareSum_symmetric (permutations_map_perm _) alike)
  · intro i null
    rw [sums, List.getElem?_ofFn, dif_pos i.isLt]
    exact congrArg some (shareSum_null null)

/-- A contributor with a link of its own and one that copies. -/
def original : Contribution where
  neuron := Particle.zero
  links := [Tru.unit.stake Particle.zero Particle.zero 1]
  surprise := Fx.one

def copier : Contribution where
  neuron := Particle.padded [1]
  links := []
  surprise := 0

theorem unit_orderFree : OrderFree Tru.unit [] () () := by
  intro left right perm
  simp only [Tru.unit, List.isEmpty_iff_length_eq_zero, perm.length_eq]

theorem shapley_axioms_copier :
    (shapleySums Tru.unit [] [original, copier] () ()).sum =
      Nat.factorial 2 • value Tru.unit [] () () [original, copier] ∧
    (shapleySums Tru.unit [] [original, copier] () ())[1]? = some 0 := by
  obtain ⟨-, -, efficient, -, null⟩ :=
    shapley_axioms Tru.unit [] [original, copier] () () unit_orderFree rfl
  exact ⟨efficient, null 1 fun _ => coalitionValue_linkless unit_orderFree rfl⟩

end Foculus.Settlement

import Foculus.Data.Outcome

namespace Foculus.Data.FoldTree

/-! Reducing a list by a binary tree.

Each pass combines neighbours from left to right and carries an odd last node
over to the next level.  Passes repeat until one node is left.  The `M` versions
run an effect with each combination.
-/

def pairUp (combine : α → α → α) : List α → List α
  | left :: right :: rest => combine left right :: pairUp combine rest
  | [last] => [last]
  | [] => []

/-- Passes until a single node is left; a pass shortens the list, so as many
passes as there are nodes are always enough. -/
def levels (combine : Nat → α → α → α) : (passes level : Nat) → List α → List α
  | passes + 1, level, left :: right :: rest =>
      levels combine passes (level + 1) (pairUp (combine level) (left :: right :: rest))
  | _, _, nodes => nodes

section Monadic

variable {m : Type u → Type v} [Monad m] {α : Type u}

def pairUpM (combine : α → α → m α) : List α → m (List α)
  | left :: right :: rest => do
      let folded ← combine left right
      let next ← pairUpM combine rest
      return folded :: next
  | [last] => return [last]
  | [] => return []

def levelsM (combine : Nat → α → α → m α) : (passes level : Nat) → List α → m (List α)
  | passes + 1, level, left :: right :: rest => do
      let next ← pairUpM (combine level) (left :: right :: rest)
      levelsM combine passes (level + 1) next
  | _, _, nodes => return nodes

end Monadic

theorem pairUp_length_le (combine : α → α → α) (nodes : List α) :
    (pairUp combine nodes).length ≤ nodes.length := by
  induction nodes using pairUp.induct with
  | case1 left right rest ih =>
      rw [pairUp, List.length_cons, List.length_cons, List.length_cons]
      omega
  | case2 node => exact Nat.le_refl _
  | case3 => exact Nat.le_refl _

theorem pairUp_measure {combine : α → α → α} {measure : α → M} {op : M → M → M} (e : M)
    [associative : Std.Associative op] {valid : α → Prop}
    (combines : ∀ left right, valid left → valid right →
      valid (combine left right) ∧ measure (combine left right) = op (measure left) (measure right))
    {nodes : List α} (allValid : ∀ node ∈ nodes, valid node) :
    (∀ node ∈ pairUp combine nodes, valid node) ∧
      ((pairUp combine nodes).map measure).foldr op e = (nodes.map measure).foldr op e := by
  induction nodes using pairUp.induct with
  | case1 left right rest ih =>
      obtain ⟨restValid, restMeasure⟩ := ih fun node member => allValid node (by simp [member])
      obtain ⟨folded, product⟩ :=
        combines left right (allValid left (by simp)) (allValid right (by simp))
      refine ⟨fun node member => ?_, ?_⟩
      · rcases List.mem_cons.mp member with rfl | later
        · exact folded
        · exact restValid node later
      · rw [pairUp, List.map_cons, List.foldr_cons, restMeasure, product, associative.assoc]
        rfl
  | case2 node => exact ⟨allValid, rfl⟩
  | case3 => exact ⟨allValid, rfl⟩

/-- With enough passes one node is left, and its measure is the ordered product
of the measures of all nodes. -/
theorem levels_root {combine : Nat → α → α → α} {measure : α → M} {op : M → M → M} {e : M}
    [Std.Associative op] [identity : Std.LawfulRightIdentity op e] {valid : α → Prop}
    (combines : ∀ level left right, valid left → valid right →
      valid (combine level left right) ∧
        measure (combine level left right) = op (measure left) (measure right))
    {passes level : Nat} {nodes : List α} (enough : nodes.length ≤ passes) (nonempty : nodes ≠ [])
    (allValid : ∀ node ∈ nodes, valid node) :
    ∃ root, levels combine passes level nodes = [root] ∧ valid root ∧
      measure root = (nodes.map measure).foldr op e := by
  induction passes generalizing level nodes with
  | zero => exact absurd (List.eq_nil_of_length_eq_zero (Nat.le_zero.mp enough)) nonempty
  | succ passes ih =>
      match nodes with
      | [node] =>
          refine ⟨node, rfl, allValid node (by simp), ?_⟩
          rw [List.map_singleton, List.foldr_cons, List.foldr_nil, identity.right_id]
      | left :: right :: rest =>
          obtain ⟨nextValid, nextMeasure⟩ := pairUp_measure e (combines level) allValid
          have shorter := pairUp_length_le (combine level) rest
          have enoughNext : (pairUp (combine level) (left :: right :: rest)).length ≤ passes := by
            simp only [pairUp, List.length_cons] at enough ⊢
            omega
          obtain ⟨root, reached, rootValid, total⟩ :=
            @ih (level + 1) _ enoughNext (by simp [pairUp]) nextValid
          exact ⟨root, reached, rootValid, total.trans nextMeasure⟩

section Maps

variable {combine : Nat → α → α → α} {combine' : Nat → β → β → β} {f : α → β}

theorem pairUp_map {combine : α → α → α} {combine' : β → β → β}
    (commutes : ∀ left right, f (combine left right) = combine' (f left) (f right))
    (nodes : List α) : (pairUp combine nodes).map f = pairUp combine' (nodes.map f) := by
  induction nodes using pairUp.induct with
  | case1 left right rest ih =>
      simp only [pairUp, List.map_cons, commutes, ih]
  | case2 node => rfl
  | case3 => rfl

/-- A tree that carries more than another one, seen through what both carry, is
that other tree. -/
theorem levels_map
    (commutes : ∀ level left right,
      f (combine level left right) = combine' level (f left) (f right))
    (passes level : Nat) (nodes : List α) :
    (levels combine passes level nodes).map f = levels combine' passes level (nodes.map f) := by
  induction passes generalizing level nodes with
  | zero => rfl
  | succ passes ih =>
      match nodes with
      | [] => rfl
      | [node] => rfl
      | left :: right :: rest =>
          rw [levels, ih, pairUp_map (commutes level)]
          rfl

end Maps

/-! The tree itself, with the nodes it starts from as its leaves. -/

inductive Shape (α : Type u) where
  | leaf (value : α)
  | node (left right : Shape α)

namespace Shape

def leaves : Shape α → List α
  | .leaf value => [value]
  | .node left right => left.leaves ++ right.leaves

def fold (combine : α → α → α) : Shape α → α
  | .leaf value => value
  | .node left right => combine (left.fold combine) (right.fold combine)

end Shape

/-- A list is reduced along a tree with its elements as leaves. -/
theorem levels_shape (combine : α → α → α) {nodes : List α} (nonempty : nodes ≠ []) :
    ∃ tree : Shape α, levels (fun _ => Shape.node) nodes.length 0 (nodes.map .leaf) = [tree] ∧
      tree.leaves = nodes ∧ levels (fun _ => combine) nodes.length 0 nodes = [tree.fold combine] := by
  have identity : Std.LawfulRightIdentity (· ++ · : List α → List α → List α) [] :=
    ⟨List.append_nil⟩
  obtain ⟨tree, reached, -, leaves⟩ : ∃ tree : Shape α,
      levels (fun _ => Shape.node) nodes.length 0 (nodes.map .leaf) = [tree] ∧ True ∧
      tree.leaves = ((nodes.map .leaf).map Shape.leaves).foldr (· ++ ·) [] :=
    levels_root (fun _ _ _ _ _ => ⟨trivial, rfl⟩) (Nat.le_of_eq (List.length_map _))
      (mt List.map_eq_nil_iff.mp nonempty) fun _ _ => trivial
  have singles (values : List α) :
      ((values.map Shape.leaf).map Shape.leaves).foldr (· ++ ·) [] = values := by
    induction values with
    | nil => rfl
    | cons value rest ih =>
        rw [List.map_cons, List.map_cons, List.foldr_cons, ih]
        rfl
  have through : (levels (fun _ => Shape.node) nodes.length 0 (nodes.map .leaf)).map
      (Shape.fold combine) = levels (fun _ => combine) nodes.length 0
        ((nodes.map .leaf).map (Shape.fold combine)) :=
    levels_map (fun _ _ _ => rfl) nodes.length 0 _
  have tips : (nodes.map Shape.leaf).map (Shape.fold combine) = nodes := by
    rw [List.map_map]
    exact List.map_id nodes
  rw [reached, tips] at through
  exact ⟨tree, reached, leaves.trans (singles nodes), through.symm⟩

section Effects

variable {σ ε : Type} {α : Type} {combine : Nat → α → α → α}
  {effect : Nat → α → α → StateT σ (Except ε) α} {invariant started : σ → Prop}

theorem pairUpM_run {combine : α → α → α} {effect : α → α → StateT σ (Except ε) α}
    (weaken : ∀ state, started state → invariant state)
    (succeeds : ∀ left right state, invariant state → ∃ after, started after ∧
      (effect left right).run state = .ok (combine left right, after))
    (nodes : List α) {state : σ} (valid : invariant state) :
    ∃ after, invariant after ∧ (2 ≤ nodes.length ∨ started state → started after) ∧
      (pairUpM effect nodes).run state = .ok (pairUp combine nodes, after) := by
  induction nodes using pairUp.induct generalizing state with
  | case1 left right rest ih =>
      obtain ⟨middle, middleStarted, folded⟩ := succeeds left right state valid
      obtain ⟨after, afterValid, afterStarted, next⟩ := ih (weaken middle middleStarted)
      refine ⟨after, afterValid, fun _ => afterStarted (.inr middleStarted), ?_⟩
      rw [pairUpM, StateT.run_bind, folded]
      change (do
        let (next, after) ← (pairUpM effect rest).run middle
        pure (combine left right :: next, after) : Except ε (List α × σ)) = _
      rw [next]
      rfl
  | case2 node => exact ⟨state, valid, by simp, rfl⟩
  | case3 => exact ⟨state, valid, by simp, rfl⟩

theorem pairUpM_result {combine : α → α → α} {effect : α → α → StateT σ (Except ε) α}
    (returns : ∀ left right state value after,
      (effect left right).run state = .ok (value, after) → value = combine left right)
    {nodes result : List α} {state after : σ}
    (ran : (pairUpM effect nodes).run state = .ok (result, after)) :
    result = pairUp combine nodes := by
  induction nodes using pairUp.induct generalizing state result after with
  | case1 left right rest ih =>
      simp only [pairUpM, StateT.run_bind, bind_eq_ok_iff, Prod.exists] at ran
      obtain ⟨folded, middle, first, next, last, later, returned⟩ := ran
      cases returned
      rw [pairUp, returns _ _ _ _ _ first, ih later]
  | case2 node =>
      cases ran
      rfl
  | case3 =>
      cases ran
      rfl

/-- Whenever a tree with effects returns, it returns what the pure tree does. -/
theorem levelsM_result
    (returns : ∀ level left right state value after,
      (effect level left right).run state = .ok (value, after) → value = combine level left right)
    {passes level : Nat} {nodes result : List α} {state after : σ}
    (ran : (levelsM effect passes level nodes).run state = .ok (result, after)) :
    result = levels combine passes level nodes := by
  induction passes generalizing level nodes state with
  | zero =>
      cases ran
      rfl
  | succ passes ih =>
      match nodes with
      | [] =>
          cases ran
          rfl
      | [node] =>
          cases ran
          rfl
      | left :: right :: rest =>
          simp only [levelsM, StateT.run_bind, bind_eq_ok_iff, Prod.exists] at ran
          obtain ⟨next, middle, paired, later⟩ := ran
          rw [ih later, pairUpM_result (returns level) paired]
          rfl

/-- A tree whose steps all succeed returns what the pure tree does. -/
theorem levelsM_run (weaken : ∀ state, started state → invariant state)
    (succeeds : ∀ level left right state, invariant state → ∃ after, started after ∧
      (effect level left right).run state = .ok (combine level left right, after))
    (passes level : Nat) (nodes : List α) {state : σ} (valid : invariant state) :
    ∃ after, invariant after ∧ (2 ≤ nodes.length ∧ 0 < passes ∨ started state → started after) ∧
      (levelsM effect passes level nodes).run state =
        .ok (levels combine passes level nodes, after) := by
  induction passes generalizing level nodes state with
  | zero => exact ⟨state, valid, by simp, rfl⟩
  | succ passes ih =>
      match nodes with
      | [] => exact ⟨state, valid, by simp, rfl⟩
      | [node] => exact ⟨state, valid, by simp, rfl⟩
      | left :: right :: rest =>
          obtain ⟨middle, middleValid, middleStarted, next⟩ :=
            pairUpM_run weaken (succeeds level) (left :: right :: rest) valid
          obtain ⟨after, afterValid, afterStarted, reached⟩ :=
            ih (level + 1) (pairUp (combine level) (left :: right :: rest)) middleValid
          have begun := middleStarted (.inl (by simp))
          refine ⟨after, afterValid, fun _ => afterStarted (.inr begun), ?_⟩
          rw [levelsM, StateT.run_bind, next]
          exact reached

end Effects

end Foculus.Data.FoldTree

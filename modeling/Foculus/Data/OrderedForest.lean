import Mathlib.Data.Fin.Basic
import Mathlib.Data.List.FinRange
import Mathlib.Logic.Relation
import Mathlib.Order.Fin.Basic
import Mathlib.Order.MinMax
import Std.Data.ExtTreeMap

namespace Foculus.Data

/-! Union-find over the positions of a list.

No parent is larger than its child, so following parents ends at a root.  The
roots are all that a client sees of a forest: looking one up relinks the nodes
on the way and moves no root, and a union moves exactly the roots of the larger
tree.  Uniting all pairs of a relation gives the classes of the equivalence that
it generates.
-/

structure Forest (n : Nat) where
  parent : Vector (Fin n) n
  ordered : ∀ x : Fin n, parent.get x ≤ x

namespace Forest

variable {n : Nat}

theorem get_set (parents : Vector (Fin n) n) (x target y : Fin n) :
    (parents.set x target).get y = if x = y then target else parents.get y := by
  change (parents.set x target)[y.val] = _
  rw [Vector.getElem_set]
  simp only [Fin.val_inj]
  rfl

theorem get_ofFn (x : Fin n) : (Vector.ofFn id).get x = x := by
  change (Vector.ofFn id)[x.val] = x
  rw [Vector.getElem_ofFn]
  rfl

def initial (n : Nat) : Forest n where
  parent := Vector.ofFn id
  ordered x := (get_ofFn x).le

def setParent (forest : Forest n) (x target : Fin n) (below : target ≤ x) : Forest n where
  parent := forest.parent.set x target
  ordered y := by
    rw [get_set]
    split_ifs with same
    · exact same ▸ below
    · exact forest.ordered y

theorem parent_lt (forest : Forest n) {x : Fin n} (inner : forest.parent.get x ≠ x) :
    forest.parent.get x < x :=
  lt_of_le_of_ne (forest.ordered x) inner

/-- The root above `x`, and the forest in which every node on the way hangs
directly below it. -/
def findBelow : (bound : Nat) → (forest : Forest n) → (x : Fin n) → x.val < bound →
    {root : Fin n // root ≤ x} × Forest n
  | 0, _, _, inside => absurd inside (Nat.not_lt_zero _)
  | bound + 1, forest, x, inside =>
      if top : forest.parent.get x = x then (⟨x, le_refl x⟩, forest)
      else
        have below := forest.parent_lt top
        let found := findBelow bound forest (forest.parent.get x)
          (Nat.lt_of_lt_of_le below (Nat.le_of_lt_succ inside))
        have rootBelow := found.1.2.trans below.le
        (⟨found.1.1, rootBelow⟩, found.2.setParent x found.1.1 rootBelow)

def find (forest : Forest n) (x : Fin n) : Fin n × Forest n :=
  let found := findBelow (x.val + 1) forest x (Nat.lt_succ_self _)
  (found.1.1, found.2)

def union (forest : Forest n) (a b : Fin n) : Forest n :=
  let (ra, forest) := forest.find a
  let (rb, forest) := forest.find b
  if ra ≠ rb then forest.setParent (max ra rb) (min ra rb) (le_trans (min_le_left _ _) (le_max_left _ _)) else forest

/-! The root of a position, without the relinking. -/

def root (forest : Forest n) (x : Fin n) : Fin n :=
  if forest.parent.get x = x then x else forest.root (forest.parent.get x)
termination_by x.val
decreasing_by exact forest.parent_lt ‹_›

theorem root_of_top {forest : Forest n} {x : Fin n} (top : forest.parent.get x = x) :
    forest.root x = x := by
  rw [root, if_pos top]

theorem root_parent (forest : Forest n) (x : Fin n) :
    forest.root (forest.parent.get x) = forest.root x := by
  by_cases top : forest.parent.get x = x
  · rw [top]
  · conv_rhs => rw [root, if_neg top]

/-- What holds of every top and of every node whose parent it holds of, holds
everywhere. -/
theorem climb (forest : Forest n) {motive : Fin n → Prop}
    (top : ∀ x, forest.parent.get x = x → motive x)
    (step : ∀ x, forest.parent.get x ≠ x → motive (forest.parent.get x) → motive x) (x : Fin n) :
    motive x := by
  induction x using WellFoundedLT.induction with
  | ind x ih =>
      by_cases here : forest.parent.get x = x
      · exact top x here
      · exact step x here (ih _ (forest.parent_lt here))

theorem parent_root (forest : Forest n) (x : Fin n) :
    forest.parent.get (forest.root x) = forest.root x := by
  induction x using forest.climb with
  | top x here => rw [root_of_top here, here]
  | step x inner ih => rwa [root_parent] at ih

theorem root_root (forest : Forest n) (x : Fin n) :
    forest.root (forest.root x) = forest.root x :=
  root_of_top (forest.parent_root x)

theorem initial_root (x : Fin n) : (initial n).root x = x :=
  root_of_top (get_ofFn x)

theorem setParent_parent (forest : Forest n) {x target : Fin n} (below : target ≤ x) (y : Fin n) :
    (forest.setParent x target below).parent.get y =
      if x = y then target else forest.parent.get y :=
  get_set forest.parent x target y

theorem setParent_root_self (forest : Forest n) {x target : Fin n} (below : target ≤ x)
    (top : forest.parent.get target = target) : (forest.setParent x target below).root x = target := by
  have here : (forest.setParent x target below).parent.get x = target := by
    rw [setParent_parent, if_pos rfl]
  by_cases same : x = target
  · rw [root_of_top (here.trans same.symm), same]
  · have targetTop : (forest.setParent x target below).parent.get target = target := by
      rw [setParent_parent, if_neg same, top]
    rw [← root_parent, here, root_of_top targetTop]

theorem setParent_root_ne (forest : Forest n) {x target y : Fin n} (below : target ≤ x)
    (apart : x ≠ y) : (forest.setParent x target below).root y =
      (forest.setParent x target below).root (forest.parent.get y) := by
  rw [← root_parent, setParent_parent, if_neg apart]

/-- Hanging a top below another one moves the roots of its tree, and no other. -/
theorem setParent_root_top (forest : Forest n) {x target : Fin n} (below : target ≤ x)
    (top : forest.parent.get x = x) (targetTop : forest.parent.get target = target) (y : Fin n) :
    (forest.setParent x target below).root y =
      if forest.root y = x then target else forest.root y := by
  induction y using forest.climb with
  | top y here =>
      rw [root_of_top here]
      split_ifs with same
      · rw [same, setParent_root_self forest below targetTop]
      · apply root_of_top
        rw [setParent_parent, if_neg (Ne.symm same), here]
  | step y inner ih =>
      have apart : x ≠ y := by
        intro same
        exact inner (same ▸ top)
      rw [setParent_root_ne forest below apart, ih, root_parent]

/-- Hanging a node directly below its root moves no root. -/
theorem setParent_root_compress (forest : Forest n) {x target : Fin n} (below : target ≤ x)
    (found : target = forest.root x) (y : Fin n) :
    (forest.setParent x target below).root y = forest.root y := by
  have targetTop : forest.parent.get target = target := by
    rw [found, parent_root]
  induction y using forest.climb with
  | top y here =>
      by_cases same : x = y
      · subst same
        rw [setParent_root_self forest below targetTop, found]
      · rw [root_of_top here]
        apply root_of_top
        rw [setParent_parent, if_neg same, here]
  | step y inner ih =>
      by_cases same : x = y
      · subst same
        rw [setParent_root_self forest below targetTop, found]
      · rw [setParent_root_ne forest below same, ih, root_parent]

theorem findBelow_spec (bound : Nat) (forest : Forest n) (x : Fin n) (inside : x.val < bound) :
    (findBelow bound forest x inside).1.1 = forest.root x ∧
      ∀ y, (findBelow bound forest x inside).2.root y = forest.root y := by
  induction bound generalizing x with
  | zero => exact absurd inside (Nat.not_lt_zero _)
  | succ bound ih =>
      rw [findBelow]
      split_ifs with top
      · exact ⟨(root_of_top top).symm, fun _ => rfl⟩
      · obtain ⟨found, kept⟩ := ih (forest.parent.get x)
          (Nat.lt_of_lt_of_le (forest.parent_lt top) (Nat.le_of_lt_succ inside))
        refine ⟨found.trans (root_parent forest x), fun y => ?_⟩
        rw [setParent_root_compress, kept]
        rw [found, kept, root_parent]

theorem find_root (forest : Forest n) (x : Fin n) : (forest.find x).1 = forest.root x :=
  (findBelow_spec _ forest x _).1

/-- Looking up a root moves no root. -/
theorem root_find (forest : Forest n) (x y : Fin n) :
    (forest.find x).2.root y = forest.root y :=
  (findBelow_spec _ forest x _).2 y

theorem union_root (forest : Forest n) (a b y : Fin n) :
    (forest.union a b).root y =
      if forest.root y = max (forest.root a) (forest.root b) then
        min (forest.root a) (forest.root b)
      else forest.root y := by
  have kept (x : Fin n) : ((forest.find a).2.find b).2.root x = forest.root x := by
    rw [root_find, root_find]
  have tops (x : Fin n) : ((forest.find a).2.find b).2.parent.get (forest.root x) =
      forest.root x := by
    rw [← kept, parent_root]
  simp only [union, find_root, root_find]
  by_cases same : forest.root a = forest.root b
  · rw [if_neg (not_not.mpr same), kept, same, max_self, min_self]
    split_ifs with here
    · exact here
    · rfl
  · rw [if_pos same]
    rcases le_total (forest.root a) (forest.root b) with order | order
    · simp only [max_eq_right order, min_eq_left order]
      rw [setParent_root_top _ order (tops b) (tops a), kept]
    · simp only [max_eq_left order, min_eq_right order]
      rw [setParent_root_top _ order (tops a) (tops b), kept]

/-- Two positions are in one tree. -/
def Same (forest : Forest n) (x y : Fin n) : Prop := forest.root x = forest.root y

theorem same_equivalence (forest : Forest n) : Equivalence forest.Same where
  refl _ := rfl
  symm := Eq.symm
  trans := Eq.trans

theorem initial_same (x y : Fin n) : (initial n).Same x y ↔ x = y := by
  rw [Same, initial_root, initial_root]

theorem same_root (forest : Forest n) (x : Fin n) : forest.Same x (forest.root x) :=
  (forest.root_root x).symm

theorem union_joins (forest : Forest n) (a b : Fin n) : (forest.union a b).Same a b := by
  rw [Same, union_root, union_root]
  rcases le_total (forest.root a) (forest.root b) with order | order
  · simp [max_eq_right order, min_eq_left order]
  · simp [max_eq_left order, min_eq_right order]

theorem union_keeps (forest : Forest n) (a b : Fin n) {x y : Fin n} (same : forest.Same x y) :
    (forest.union a b).Same x y := by
  rw [Same, union_root, union_root, same]

/-- The new root of a position is reached through the old trees and the new edge. -/
theorem union_reaches (forest : Forest n) (a b y : Fin n) :
    Relation.EqvGen (fun x y => forest.Same x y ∨ x = a ∧ y = b) y ((forest.union a b).root y) := by
  have up (x : Fin n) : Relation.EqvGen (fun x y => forest.Same x y ∨ x = a ∧ y = b) x
      (forest.root x) := .rel _ _ (.inl (forest.same_root x))
  have across : Relation.EqvGen (fun x y => forest.Same x y ∨ x = a ∧ y = b) (forest.root a)
      (forest.root b) := .trans _ _ _ (.symm _ _ (up a))
        (.trans _ _ _ (.rel _ _ (.inr ⟨rfl, rfl⟩)) (up b))
  rw [union_root]
  split_ifs with moved
  · refine .trans _ _ _ (up y) ?_
    rw [moved]
    rcases le_total (forest.root a) (forest.root b) with order | order
    · rw [max_eq_right order, min_eq_left order]
      exact .symm _ _ across
    · rw [max_eq_left order, min_eq_right order]
      exact across
  · exact up y

/-- A union joins the trees of its two positions, and only these. -/
theorem union_same (forest : Forest n) (a b x y : Fin n) :
    (forest.union a b).Same x y ↔
      Relation.EqvGen (fun x y => forest.Same x y ∨ x = a ∧ y = b) x y := by
  constructor
  · intro united
    have meet := forest.union_reaches a b y
    rw [← show (forest.union a b).root x = _ from united] at meet
    exact .trans _ _ _ (forest.union_reaches a b x) (.symm _ _ meet)
  · intro joined
    induction joined with
    | rel x y edge =>
        rcases edge with same | ⟨rfl, rfl⟩
        · exact forest.union_keeps a b same
        · exact forest.union_joins x y
    | refl x => rfl
    | symm x y _ ih => exact ih.symm
    | trans x y z _ _ first second => exact first.trans second

/-- Uniting along edges joins what the edges connect. -/
theorem foldl_union_same (edges : List (Fin n × Fin n)) (forest : Forest n) (x y : Fin n) :
    (edges.foldl (fun forest edge => forest.union edge.1 edge.2) forest).Same x y ↔
      Relation.EqvGen (fun x y => forest.Same x y ∨ (x, y) ∈ edges) x y := by
  induction edges generalizing forest with
  | nil =>
      simp only [List.foldl_nil, List.not_mem_nil, or_false]
      exact forest.same_equivalence.eqvGen_iff.symm
  | cons edge rest ih =>
      rw [List.foldl_cons, ih]
      constructor
      · refine Relation.EqvGen.eqvGen_le ?_ x y
        intro a b link
        rcases link with united | later
        · refine Relation.EqvGen.eqvGen_le ?_ a b ((forest.union_same _ _ _ _).mp united)
          intro c d link
          rcases link with same | ⟨rfl, rfl⟩
          · exact .rel _ _ (.inl same)
          · exact .rel _ _ (.inr List.mem_cons_self)
        · exact .rel _ _ (.inr (List.mem_cons_of_mem _ later))
      · refine Relation.EqvGen.eqvGen_le ?_ x y
        intro a b link
        rcases link with same | member
        · exact .rel _ _ (.inl (forest.union_keeps _ _ same))
        · rcases List.mem_cons.mp member with rfl | later
          · exact .rel _ _ (.inl (forest.union_joins a b))
          · exact .rel _ _ (.inr later)

/-! All pairs of a relation, each once. -/

/-- Unite every position with the later ones it is related to. -/
def mergeWhere (related : Fin n → Fin n → Bool) : Forest n :=
  (List.finRange n).foldl (fun forest i =>
    ((List.finRange n).drop (i.val + 1)).foldl (fun forest j =>
      if related i j then forest.union i j else forest) forest) (initial n)

def relatedPairs (related : Fin n → Fin n → Bool) : List (Fin n × Fin n) :=
  (List.finRange n).flatMap fun i =>
    (((List.finRange n).drop (i.val + 1)).filter (related i)).map fun j => (i, j)

theorem mergeWhere_eq (related : Fin n → Fin n → Bool) :
    mergeWhere related = (relatedPairs related).foldl
      (fun forest edge => forest.union edge.1 edge.2) (initial n) := by
  rw [mergeWhere, relatedPairs, List.foldl_flatMap]
  simp only [List.foldl_map, List.foldl_filter]

theorem mem_relatedPairs {related : Fin n → Fin n → Bool} {x y : Fin n} :
    (x, y) ∈ relatedPairs related ↔ x < y ∧ related x y = true := by
  have later : y ∈ (List.finRange n).drop (x.val + 1) ↔ x < y := by
    rw [List.mem_drop_iff_getElem]
    constructor
    · intro placed
      obtain ⟨j, inside, entry⟩ := placed
      rw [← entry, List.getElem_finRange, Fin.lt_def]
      simp only [Fin.val_cast]
      omega
    · intro order
      have gap := Fin.lt_def.mp order
      refine ⟨y.val - (x.val + 1), ?_, ?_⟩
      · rw [List.length_finRange]
        omega
      · apply Fin.ext
        simp only [List.getElem_finRange, Fin.val_cast]
        omega
  simp only [relatedPairs, List.mem_flatMap, List.mem_map, List.mem_filter, Prod.mk.injEq]
  constructor
  · intro listed
    obtain ⟨i, _, j, ⟨inside, holds⟩, rfl, rfl⟩ := listed
    exact ⟨later.mp inside, holds⟩
  · intro pair
    obtain ⟨order, holds⟩ := pair
    exact ⟨x, List.mem_finRange x, y, ⟨later.mpr order, holds⟩, rfl, rfl⟩

/-- The trees are the classes that the relation generates. -/
theorem mergeWhere_same {related : Fin n → Fin n → Bool}
    (symmetric : ∀ x y, related x y = related y x) (x y : Fin n) :
    (mergeWhere related).Same x y ↔ Relation.EqvGen (fun x y => related x y = true) x y := by
  rw [mergeWhere_eq, foldl_union_same]
  constructor
  · refine Relation.EqvGen.eqvGen_le ?_ x y
    intro a b link
    rcases link with same | member
    · rw [(initial_same a b).mp same]
      exact .refl b
    · exact .rel _ _ (mem_relatedPairs.mp member).2
  · refine Relation.EqvGen.eqvGen_le ?_ x y
    intro a b holds
    rcases lt_trichotomy a b with order | rfl | order
    · exact .rel _ _ (.inr (mem_relatedPairs.mpr ⟨order, holds⟩))
    · exact .refl a
    · exact .symm _ _ (.rel _ _ (.inr (mem_relatedPairs.mpr ⟨order, symmetric a b ▸ holds⟩)))

/-! The trees as lists of positions. -/

/-- Put every position, in order, into the group of its root. -/
def groups (forest : Forest n) : Std.ExtTreeMap (Fin n) (List (Fin n)) :=
  ((List.finRange n).foldl (fun (state : Forest n × Std.ExtTreeMap (Fin n) (List (Fin n))) i =>
    let (root, forest) := state.1.find i
    (forest, state.2.alter root fun members => some (members.getD [] ++ [i]))) (forest, ∅)).2

/-- The groups in the order of their roots. -/
def classes (forest : Forest n) : List (List (Fin n)) := forest.groups.toList.map Prod.snd

/-- The group of a root among the positions seen so far. -/
def collected (forest : Forest n) (seen : List (Fin n)) (root : Fin n) : Option (List (Fin n)) :=
  let members := seen.filter (forest.root · = root)
  if members = [] then none else some members

theorem collected_getD (forest : Forest n) (seen : List (Fin n)) (root : Fin n) :
    (forest.collected seen root).getD [] = seen.filter (forest.root · = root) := by
  rw [collected]
  split_ifs with none_
  · exact none_.symm
  · rfl

theorem collected_append (forest : Forest n) (seen : List (Fin n)) (i root : Fin n) :
    forest.collected (seen ++ [i]) root =
      if forest.root i = root then some ((forest.collected seen root).getD [] ++ [i])
      else forest.collected seen root := by
  rw [collected_getD]
  by_cases here : forest.root i = root
  · simp [collected, here]
  · simp [collected, here]

theorem groupLoop (forest : Forest n) (positions seen : List (Fin n))
    {state : Forest n × Std.ExtTreeMap (Fin n) (List (Fin n))}
    (kept : ∀ y, state.1.root y = forest.root y)
    (grouped : ∀ root, state.2[root]? = forest.collected seen root) (root : Fin n) :
    (positions.foldl (fun (state : Forest n × Std.ExtTreeMap (Fin n) (List (Fin n))) i =>
      let (root, forest) := state.1.find i
      (forest, state.2.alter root fun members => some (members.getD [] ++ [i]))) state).2[root]? =
      forest.collected (seen ++ positions) root := by
  induction positions generalizing seen state with
  | nil => rw [List.append_nil, List.foldl_nil, grouped]
  | cons i rest ih =>
      rw [List.foldl_cons, List.append_cons]
      apply ih
      · intro y
        exact (root_find state.1 i y).trans (kept y)
      · intro root
        change (state.2.alter (state.1.find i).1 _)[root]? = _
        rw [Std.ExtTreeMap.getElem?_alter, find_root, kept, collected_append]
        simp only [Std.LawfulEqCmp.compare_eq_iff_eq, grouped]
        split_ifs with here
        · rw [here]
        · rfl

theorem groups_getElem? (forest : Forest n) (root : Fin n) :
    forest.groups[root]? = forest.collected (List.finRange n) root := by
  have start : (∀ y, (forest, (∅ : Std.ExtTreeMap (Fin n) (List (Fin n)))).1.root y =
      forest.root y) ∧ ∀ root, (forest, (∅ : Std.ExtTreeMap (Fin n) (List (Fin n)))).2[root]? =
        forest.collected [] root := ⟨fun _ => rfl, fun _ => rfl⟩
  exact forest.groupLoop (List.finRange n) [] start.1 start.2 root

/-- A class is the list of all positions of one tree. -/
theorem mem_classes (forest : Forest n) {members : List (Fin n)} :
    members ∈ forest.classes ↔
      ∃ root, members = (List.finRange n).filter (forest.root · = root) ∧ members ≠ [] := by
  simp only [classes, List.mem_map, Prod.exists, exists_eq_right,
    Std.ExtTreeMap.mem_toList_iff_getElem?_eq_some, groups_getElem?, collected]
  constructor
  · intro entry
    obtain ⟨root, found⟩ := entry
    split_ifs at found with none_
    cases found
    exact ⟨root, rfl, none_⟩
  · intro tree
    obtain ⟨root, rfl, some_⟩ := tree
    exact ⟨root, if_neg some_⟩

/-- A class has no position twice, and has with a position its whole tree. -/
theorem classes_exact (forest : Forest n) {members : List (Fin n)}
    (listed : members ∈ forest.classes) :
    members ≠ [] ∧ members.Nodup ∧ ∀ x ∈ members, ∀ y, y ∈ members ↔ forest.Same x y := by
  obtain ⟨root, rfl, some_⟩ := forest.mem_classes.mp listed
  refine ⟨some_, (List.nodup_finRange n).filter _, fun x member y => ?_⟩
  have here : forest.root x = root := by simpa using member
  rw [Same, here]
  simpa using eq_comm

theorem classes_cover (forest : Forest n) (x : Fin n) : ∃ members ∈ forest.classes, x ∈ members := by
  have member : x ∈ (List.finRange n).filter (forest.root · = forest.root x) := by simp
  exact ⟨_, forest.mem_classes.mpr ⟨forest.root x, rfl, List.ne_nil_of_mem member⟩, member⟩

/-- No position is in two classes. -/
theorem classes_disjoint (forest : Forest n) :
    forest.classes.Pairwise fun left right => ∀ x ∈ left, x ∉ right := by
  have rooted {root : Fin n} {members : List (Fin n)}
      (entry : (root, members) ∈ forest.groups.toList) : ∀ x ∈ members, forest.root x = root := by
    rw [Std.ExtTreeMap.mem_toList_iff_getElem?_eq_some, groups_getElem?, collected] at entry
    split_ifs at entry
    cases entry
    intro x member
    simpa using member
  rw [classes, List.pairwise_map]
  refine List.Pairwise.imp_of_mem ?_ forest.groups.distinct_keys_toList
  intro left right leftEntry rightEntry apart x inLeft inRight
  apply apart
  rw [Std.LawfulEqCmp.compare_eq_iff_eq, ← rooted leftEntry x inLeft, rooted rightEntry x inRight]

end Forest

end Foculus.Data

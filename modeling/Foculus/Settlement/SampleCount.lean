import Foculus.Settlement.FoldTree

namespace Foculus.Settlement

open Data ClusterAcc

/-! What the count of a fold says about its samples.

A fold unites the samples of its two sides.  It adds their counts when the sides
have one dimension and no sample in common, and counts the united samples
otherwise.  So a count that exceeds the samples of a leaf is carried up the tree
by additions, and lost at the first fold that counts.
-/

/-- The fold of the two sides adds their counts. -/
def AddsCounts (left right : ClusterAcc) : Prop :=
  left.sumM.length = right.sumM.length ∧ (left.seen ∩ right.seen).size = 0

instance (left right : ClusterAcc) : Decidable (AddsCounts left right) :=
  inferInstanceAs (Decidable (_ ∧ _))

theorem foldAcc_seen (hemera : Hemera) (left right : ClusterAcc) :
    (foldAcc hemera left right).seen = left.seen ∪ right.seen := by
  simp only [foldAcc]
  split_ifs <;> rfl

theorem foldAcc_k (hemera : Hemera) (left right : ClusterAcc) :
    (foldAcc hemera left right).k =
      if AddsCounts left right then satAdd left.k right.k
      else lenU64 (left.seen ∪ right.seen).size := by
  simp only [foldAcc]
  by_cases adds : AddsCounts left right
  · obtain ⟨dimension, disjoint⟩ := id adds
    rw [if_pos adds, if_pos dimension, if_pos disjoint]
    rfl
  · rw [if_neg adds]
    by_cases dimension : left.sumM.length = right.sumM.length
    · have shared : (left.seen ∩ right.seen).size ≠ 0 := fun disjoint => adds ⟨dimension, disjoint⟩
      rw [if_pos dimension, if_neg shared]
      rfl
    · rw [if_neg dimension]
      split_ifs <;> rfl

instance : Std.Associative (· ∪ · : Samples → Samples → Samples) where
  assoc first second third := by
    apply Std.ExtTreeSet.ext_mem
    simp [or_assoc]

instance : Std.LawfulRightIdentity (· ∪ · : Samples → Samples → Samples) ∅ where
  right_id samples := by
    apply Std.ExtTreeSet.ext_mem
    simp

/-- The distinct samples of all leaves. -/
def unitedSamples (leaves : List ClusterAcc) : Samples :=
  (leaves.map ClusterAcc.seen).foldr (· ∪ ·) ∅

/-- By how much the count of an accumulator exceeds its samples. -/
def ClusterAcc.surplus (acc : ClusterAcc) : Int := (acc.k.toNat : Int) - acc.seen.size

def surpluses (leaves : List ClusterAcc) : Int := (leaves.map ClusterAcc.surplus).sum

/-- What is counted on one side of the tree: the distinct samples of its leaves and the
surpluses of those whose counts are added, up to the largest `u64`. -/
def weight (leaves kept : List ClusterAcc) : Int :=
  min ((unitedSamples leaves).size + surpluses kept) (2 ^ 64 - 1)

/-- No leaf of the one side has a sample of a leaf of the other. -/
def Apart (left right : List ClusterAcc) : Prop :=
  ∀ here ∈ left, ∀ there ∈ right, (here.seen ∩ there.seen).size = 0

instance (left right : List ClusterAcc) : Decidable (Apart left right) :=
  inferInstanceAs (Decidable (∀ _ ∈ _, ∀ _ ∈ _, _ = _))

mutual

/-- The leaves whose counts are added all the way up: below no two sides that share a
sample or have different dimensions. -/
def kept : FoldTree.Shape ClusterAcc → List ClusterAcc
  | .leaf acc => [acc]
  | .node left right =>
      if dimension left = dimension right ∧ Apart left.leaves right.leaves then kept left ++ kept right
      else []

/-- The dimension of a side is that of its leaves; of two dimensions, the one of the
heavier side. -/
def dimension : FoldTree.Shape ClusterAcc → Nat
  | .leaf acc => acc.sumM.length
  | .node left right =>
      if weight right.leaves (kept right) ≤ weight left.leaves (kept left) then dimension left
      else dimension right

end

/-- The leaves of the tree over these whose counts reach its root. -/
def keptLeaves (leaves : List ClusterAcc) : List ClusterAcc :=
  kept ((FoldTree.levels (fun _ => .node) leaves.length 0 (leaves.map .leaf)).headD
    (.leaf ClusterAcc.default))

theorem unitedSamples_append (left right : List ClusterAcc) :
    unitedSamples (left ++ right) = unitedSamples left ∪ unitedSamples right := by
  induction left with
  | nil =>
      apply Std.ExtTreeSet.ext_mem
      simp [unitedSamples]
  | cons first rest ih =>
      have tail : unitedSamples (first :: (rest ++ right)) =
          first.seen ∪ unitedSamples (rest ++ right) := rfl
      have associative : Std.Associative (· ∪ · : Samples → Samples → Samples) := inferInstance
      rw [List.cons_append, tail, ih]
      exact (associative.assoc _ _ _).symm

theorem mem_unitedSamples {leaves : List ClusterAcc} {sample : Particle × UInt64} :
    sample ∈ unitedSamples leaves ↔ ∃ leaf ∈ leaves, sample ∈ leaf.seen := by
  induction leaves with
  | nil => simp [unitedSamples]
  | cons first rest ih =>
      change sample ∈ first.seen ∪ unitedSamples rest ↔ _
      rw [Std.ExtTreeSet.mem_union_iff, ih, List.exists_mem_cons_iff]

theorem size_inter_eq_zero_iff {left right : Samples} :
    (left ∩ right).size = 0 ↔ ∀ sample ∈ left, sample ∉ right := by
  rw [← Std.ExtTreeSet.eq_empty_iff_size_eq_zero, Std.ExtTreeSet.eq_empty_iff_forall_not_mem]
  simp only [Std.ExtTreeSet.mem_inter_iff, not_and]

theorem apart_iff {left right : List ClusterAcc} :
    Apart left right ↔ (unitedSamples left ∩ unitedSamples right).size = 0 := by
  simp only [Apart, size_inter_eq_zero_iff, mem_unitedSamples, not_exists, not_and]
  exact ⟨fun apart sample ⟨here, inside, known⟩ there other =>
      apart here inside there other sample known,
    fun apart here inside there other sample known =>
      apart sample ⟨here, inside, known⟩ there other⟩

theorem surpluses_append (left right : List ClusterAcc) :
    surpluses (left ++ right) = surpluses left + surpluses right := by
  rw [surpluses, List.map_append, List.sum_append]
  rfl

/-- What the leaves say of the root: its samples, its dimension and its count. -/
structure Tallied (tree : FoldTree.Shape ClusterAcc) (root : ClusterAcc) : Prop where
  seen : root.seen = unitedSamples tree.leaves
  dimension : root.sumM.length = dimension tree
  counted : ∃ count : Nat, root.k = lenU64 count ∧
    (count : Int) = (unitedSamples tree.leaves).size + surpluses (kept tree)

theorem Tallied.weight {tree : FoldTree.Shape ClusterAcc} {root : ClusterAcc}
    (tallied : Tallied tree root) : (root.k.toNat : Int) = weight tree.leaves (kept tree) := by
  obtain ⟨count, stated, total⟩ := tallied.counted
  rw [Settlement.weight, ← total, stated, lenU64_toNat]
  push_cast
  rfl

theorem foldAcc_sumM (hemera : Hemera) (left right : ClusterAcc) :
    (foldAcc hemera left right).sumM.length =
      if left.k ≥ right.k then left.sumM.length else right.sumM.length := by
  simp only [foldAcc]
  by_cases dimension : left.sumM.length = right.sumM.length
  · rw [if_pos dimension, dimension, ite_self]
    simp [committed, dimension]
  · rw [if_neg dimension]
    split_ifs <;> rfl

theorem fold_tallied (hemera : Hemera) (tree : FoldTree.Shape ClusterAcc) :
    Tallied tree (tree.fold (foldAcc hemera)) := by
  induction tree with
  | leaf acc =>
      have identity : Std.LawfulRightIdentity (· ∪ · : Samples → Samples → Samples) ∅ :=
        inferInstance
      have alone : unitedSamples (FoldTree.Shape.leaf acc).leaves = acc.seen := identity.right_id _
      refine ⟨alone.symm, by rw [dimension]; rfl, acc.k.toNat, (lenU64_of_toNat acc.k).symm, ?_⟩
      rw [alone, kept, surpluses, List.map_singleton, List.sum_singleton, surplus]
      omega
  | node left right leftTallied rightTallied =>
      have heavier : (left.fold (foldAcc hemera)).k ≥ (right.fold (foldAcc hemera)).k ↔
          weight right.leaves (kept right) ≤ weight left.leaves (kept left) := by
        rw [← leftTallied.weight, ← rightTallied.weight, Int.ofNat_le]
        exact UInt64.le_iff_toNat_le
      have adds : AddsCounts (left.fold (foldAcc hemera)) (right.fold (foldAcc hemera)) ↔
          dimension left = dimension right ∧ Apart left.leaves right.leaves := by
        rw [AddsCounts, apart_iff, leftTallied.seen, rightTallied.seen, leftTallied.dimension,
          rightTallied.dimension]
      refine ⟨?_, ?_, ?_⟩
      · rw [FoldTree.Shape.fold, foldAcc_seen, FoldTree.Shape.leaves, unitedSamples_append,
          leftTallied.seen, rightTallied.seen]
      · rw [FoldTree.Shape.fold, foldAcc_sumM, dimension, leftTallied.dimension,
          rightTallied.dimension]
        exact if_congr heavier rfl rfl
      · obtain ⟨leftCount, leftK, leftSum⟩ := leftTallied.counted
        obtain ⟨rightCount, rightK, rightSum⟩ := rightTallied.counted
        rw [FoldTree.Shape.fold, foldAcc_k, FoldTree.Shape.leaves, unitedSamples_append, kept]
        by_cases together : dimension left = dimension right ∧ Apart left.leaves right.leaves
        · refine ⟨leftCount + rightCount, ?_, ?_⟩
          · rw [if_pos (adds.mpr together), leftK, rightK, satAdd_lenU64]
          · rw [if_pos together, size_union_of_inter_empty (apart_iff.mp together.2), surpluses_append]
            push_cast
            omega
        · refine ⟨(unitedSamples left.leaves ∪ unitedSamples right.leaves).size, ?_, ?_⟩
          · rw [if_neg (mt adds.mp together), leftTallied.seen, rightTallied.seen]
          · rw [if_neg together]
            exact (Int.add_zero _).symm

/-- The root of a tree, by its leaves. -/
theorem treeRoot_counted (hemera : Hemera) {leaves : List ClusterAcc} (nonempty : leaves ≠ []) :
    (treeRoot hemera leaves).seen = unitedSamples leaves ∧ ∃ count : Nat,
      (treeRoot hemera leaves).k = lenU64 count ∧
      (count : Int) = (unitedSamples leaves).size + surpluses (keptLeaves leaves) := by
  obtain ⟨tree, shape, tips, reached⟩ := FoldTree.levels_shape (foldAcc hemera) nonempty
  have tallied := fold_tallied hemera tree
  rw [treeRoot, keptLeaves, reached, shape, List.headD_cons, List.headD_cons, ← tips]
  exact ⟨tallied.seen, tallied.counted⟩

theorem kept_subset (tree : FoldTree.Shape ClusterAcc) : kept tree ⊆ tree.leaves := by
  induction tree with
  | leaf acc =>
      rw [kept]
      exact List.Subset.refl _
  | node left right leftKept rightKept =>
      rw [kept, FoldTree.Shape.leaves]
      split_ifs
      · exact List.append_subset.mpr ⟨List.subset_append_of_subset_left _ leftKept,
          List.subset_append_of_subset_right _ rightKept⟩
      · exact List.nil_subset _

/-- Leaves that state the number of their samples leave no surplus. -/
theorem surpluses_kept_eq_zero {leaves : List ClusterAcc} (nonempty : leaves ≠ [])
    (honest : ∀ leaf ∈ leaves, leaf.surplus = 0) : surpluses (keptLeaves leaves) = 0 := by
  obtain ⟨tree, shape, tips, -⟩ := FoldTree.levels_shape (fun left _ => left) nonempty
  have within := kept_subset tree
  rw [tips] at within
  rw [keptLeaves, shape, List.headD_cons, surpluses]
  refine List.sum_eq_zero fun excess member => ?_
  obtain ⟨leaf, inside, rfl⟩ := List.mem_map.mp member
  exact honest leaf (within inside)

theorem kept_eq_leaves {width : Nat} (tree : FoldTree.Shape ClusterAcc)
    (dimensions : ∀ leaf ∈ tree.leaves, leaf.sumM.length = width)
    (disjoint : tree.leaves.Pairwise fun left right => (left.seen ∩ right.seen).size = 0) :
    kept tree = tree.leaves ∧ dimension tree = width := by
  induction tree with
  | leaf acc =>
      rw [kept, dimension]
      exact ⟨rfl, dimensions acc List.mem_cons_self⟩
  | node left right leftAll rightAll =>
      rw [FoldTree.Shape.leaves] at dimensions disjoint
      obtain ⟨leftDisjoint, rightDisjoint, apart⟩ := List.pairwise_append.mp disjoint
      obtain ⟨leftKept, leftWidth⟩ := leftAll
        (fun leaf member => dimensions leaf (List.mem_append_left _ member)) leftDisjoint
      obtain ⟨rightKept, rightWidth⟩ := rightAll
        (fun leaf member => dimensions leaf (List.mem_append_right _ member)) rightDisjoint
      rw [kept, dimension, FoldTree.Shape.leaves, leftWidth, rightWidth, ite_self, leftKept, rightKept,
        if_pos ⟨rfl, apart⟩]
      exact ⟨rfl, rfl⟩

/-- Leaves of one dimension that share no sample are all kept. -/
theorem keptLeaves_eq {leaves : List ClusterAcc} (nonempty : leaves ≠ []) {width : Nat}
    (dimensions : ∀ leaf ∈ leaves, leaf.sumM.length = width)
    (disjoint : leaves.Pairwise fun left right => (left.seen ∩ right.seen).size = 0) :
    keptLeaves leaves = leaves := by
  obtain ⟨tree, shape, tips, -⟩ := FoldTree.levels_shape (fun left _ => left) nonempty
  rw [← tips] at dimensions disjoint
  rw [keptLeaves, shape, List.headD_cons]
  exact (kept_eq_leaves tree dimensions disjoint).1.trans tips

/-! The accumulator of a miner's own tickets has no surplus. -/

theorem absorbTicket_seen (hemera : Hemera) (acc : ClusterAcc) (ticket : SettlementTicket) :
    (absorbTicket hemera acc ticket).seen = acc.seen.insert ticket.key := by
  by_cases known : acc.seen.contains (ticket.miner, ticket.nonce)
  · rw [absorbTicket, if_pos known]
    apply Std.ExtTreeSet.ext_mem
    intro sample
    rw [Std.ExtTreeSet.mem_insert, Std.LawfulEqCmp.compare_eq_iff_eq]
    constructor
    · exact .inr
    · rintro (rfl | before)
      · exact known
      · exact before
  · rw [absorbTicket, if_neg known]
    dsimp only
    split_ifs <;> rfl

theorem selfFold_size_le (hemera : Hemera) (n : Nat) (tickets : List SettlementTicket) :
    (selfFold hemera n tickets).seen.size ≤ tickets.length := by
  induction tickets using List.reverseRecOn with
  | nil => exact Nat.le_refl 0
  | append_singleton tickets ticket ih =>
      have grown := Std.ExtTreeSet.size_insert_le (t := (selfFold hemera n tickets).seen)
        (k := ticket.key)
      rw [selfFold_append_singleton, absorbTicket_seen, List.length_append]
      exact Nat.le_trans grown (Nat.succ_le_succ ih)

theorem selfFold_surplus (hemera : Hemera) {n : Nat} {tickets : List SettlementTicket}
    (dimension : ∀ ticket ∈ tickets, ticket.marginals.length = n)
    (few : tickets.length < 2 ^ 64) : (selfFold hemera n tickets).surplus = 0 := by
  have size := selfFold_size_le hemera n tickets
  rw [ClusterAcc.surplus, (selfFold_valid hemera dimension).counted, lenU64_toNat]
  omega

/-! Whatever the dimensions of its tickets, an accumulator counts nothing only
when it has seen nothing, so a root is idle only when all its leaves are. -/

namespace ClusterAcc

/-- The accumulator counts nothing exactly when it has seen nothing. -/
def IdleUnseen (acc : ClusterAcc) : Prop := acc.k = 0 ↔ acc.seen.size = 0

theorem satAdd_eq_zero_iff {left right : UInt64} : satAdd left right = 0 ↔ left = 0 ∧ right = 0 := by
  rw [satAdd, lenU64_eq_zero_iff, Nat.add_eq_zero_iff, ← UInt64.toNat_inj, ← UInt64.toNat_inj]
  rfl

end ClusterAcc

theorem absorbTicket_idleUnseen (hemera : Hemera) {acc : ClusterAcc} (idle : acc.IdleUnseen)
    (ticket : SettlementTicket) : (absorbTicket hemera acc ticket).IdleUnseen := by
  by_cases known : acc.seen.contains (ticket.miner, ticket.nonce)
  · rw [absorbTicket, if_pos known]
    exact idle
  · have seen : (acc.seen.insert (ticket.miner, ticket.nonce)).size ≠ 0 := by
      rw [Std.ExtTreeSet.size_insert, if_neg known]
      exact Nat.succ_ne_zero _
    rw [absorbTicket, if_neg known]
    dsimp only
    split_ifs with mismatch
    · exact iff_of_false mismatch.2 seen
    all_goals
      refine iff_of_false (fun zero => ?_) seen
      exact absurd (satAdd_eq_zero_iff.mp zero).2 (by decide)

theorem selfFold_idleUnseen (hemera : Hemera) (n : Nat) (tickets : List SettlementTicket) :
    (selfFold hemera n tickets).IdleUnseen := by
  induction tickets using List.reverseRecOn with
  | nil => exact iff_of_true rfl rfl
  | append_singleton tickets ticket ih =>
      rw [selfFold_append_singleton]
      exact absorbTicket_idleUnseen hemera ih ticket

theorem size_union_eq_zero_iff {left right : Samples} :
    (left ∪ right).size = 0 ↔ left.size = 0 ∧ right.size = 0 := by
  have emptiness (samples : Samples) : samples.size = 0 ↔ samples.isEmpty = true := by
    rw [Std.ExtTreeSet.isEmpty_eq_size_beq_zero, beq_iff_eq]
  rw [emptiness, emptiness, emptiness, Std.ExtTreeSet.isEmpty_union, Bool.and_eq_true]

theorem foldAcc_idle {hemera : Hemera} {left right : ClusterAcc} (leftIdle : left.IdleUnseen)
    (rightIdle : right.IdleUnseen) :
    (foldAcc hemera left right).IdleUnseen ∧
      ((foldAcc hemera left right).k == 0) = (left.k == 0 && right.k == 0) := by
  have both : (foldAcc hemera left right).k = 0 ↔ left.k = 0 ∧ right.k = 0 := by
    rw [foldAcc_k]
    split_ifs
    · exact satAdd_eq_zero_iff
    · rw [lenU64_eq_zero_iff, size_union_eq_zero_iff]
      exact and_congr leftIdle.symm rightIdle.symm
  constructor
  · rw [ClusterAcc.IdleUnseen, both, foldAcc_seen, size_union_eq_zero_iff]
    exact and_congr leftIdle rightIdle
  · rw [Bool.eq_iff_iff]
    simpa using both

/-- A root counts nothing exactly when none of its leaves counts anything. -/
theorem treeRoot_idle {hemera : Hemera} {leaves : List ClusterAcc} (nonempty : leaves ≠ [])
    (idle : ∀ leaf ∈ leaves, leaf.IdleUnseen) :
    (treeRoot hemera leaves).k = 0 ↔ ∀ leaf ∈ leaves, leaf.k = 0 := by
  obtain ⟨root, reached, _, all⟩ : ∃ root,
      FoldTree.levels (fun _ => foldAcc hemera) leaves.length 0 leaves = [root] ∧
      root.IdleUnseen ∧
      (root.k == 0) = (leaves.map fun leaf => leaf.k == 0).foldr (· && ·) true :=
    FoldTree.levels_root (fun _ _ _ => foldAcc_idle) (Nat.le_refl _) nonempty idle
  have together (values : List Bool) : values.foldr (· && ·) true = values.all id := by
    induction values with
    | nil => rfl
    | cons value rest ih => rw [List.foldr_cons, ih, List.all_cons, id]
  rw [treeRoot, reached, List.headD_cons, ← beq_iff_eq, all, together]
  simp

end Foculus.Settlement

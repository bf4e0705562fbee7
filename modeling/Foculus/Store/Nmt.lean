import Foculus.Crates.Hemera
import Mathlib.Data.Prod.Lex
import Mathlib.Data.String.Basic

namespace Foculus.Store

/-! # The namespace Merkle tree (`src/nmt.rs`) -/

structure NmtLeaf where
  «namespace» : String
  dataHash : String
deriving DecidableEq

structure NmtNode where
  hash : String
  minNs : String
  maxNs : String
deriving DecidableEq

structure CompletenessProof where
  «namespace» : String
  leaves : List NmtLeaf
  root : NmtNode
  totalLeaves : Nat

namespace Nmt

/-- The derived order: by namespace, then by data hash. -/
def le (left right : NmtLeaf) : Bool :=
  decide (toLex (left.namespace, left.dataHash) ≤ toLex (right.namespace, right.dataHash))

def sort (leaves : List NmtLeaf) : List NmtLeaf := leaves.mergeSort le

def leafText (leaf : NmtLeaf) : String := "nmt_leaf:" ++ leaf.namespace ++ ":" ++ leaf.dataHash

def hashText (hemera : Hemera) (text : String) : String :=
  hemera.toHex (hemera.hash (strBytes text))

def hashLeaf (hemera : Hemera) (leaf : NmtLeaf) : String := hashText hemera (leafText leaf)

def pairText (left right : NmtNode) : String :=
  "nmt_node:" ++ left.hash ++ ":" ++ right.hash ++ ":" ++ left.minNs ++ ":" ++ right.maxNs

def hashPair (hemera : Hemera) (left right : NmtNode) : NmtNode where
  hash := hashText hemera (pairText left right)
  minNs := min left.minNs right.minNs
  maxNs := max left.maxNs right.maxNs

def zeros : String := String.ofList (List.replicate 64 '0')

def buildTree (hemera : Hemera) : List NmtLeaf → NmtNode
  | [] => { hash := zeros, minNs := "", maxNs := "" }
  | [leaf] =>
      { hash := hashLeaf hemera leaf, minNs := leaf.namespace, maxNs := leaf.namespace }
  | first :: second :: rest =>
      let leaves := first :: second :: rest
      let mid := leaves.length / 2
      hashPair hemera (buildTree hemera (leaves.take mid)) (buildTree hemera (leaves.drop mid))
termination_by leaves => leaves.length
decreasing_by
  · simp only [List.length_take, List.length_cons]
    omega
  · simp only [List.length_drop, List.length_cons]
    omega

def build (hemera : Hemera) (leaves : List NmtLeaf) : NmtNode := buildTree hemera (sort leaves)

def prove (hemera : Hemera) (leaves : List NmtLeaf) («namespace» : String) :
    CompletenessProof where
  «namespace» := «namespace»
  leaves := (sort leaves).filter fun leaf => leaf.namespace == «namespace»
  root := buildTree hemera (sort leaves)
  totalLeaves := (sort leaves).length

/-- No leaf is less than the one before it. -/
def isSorted : List NmtLeaf → Bool
  | first :: second :: rest => le first second && isSorted (second :: rest)
  | _ => true

def verify (proof : CompletenessProof) (trustedRoot : NmtNode) : Bool :=
  if proof.root ≠ trustedRoot then false
  else if proof.leaves.any fun leaf => leaf.namespace != proof.namespace then false
  else isSorted proof.leaves

def verifyFull (hemera : Hemera) (allLeaves : List NmtLeaf) (proof : CompletenessProof) : Bool :=
  if !verify proof (build hemera allLeaves) then false
  else
    let actual := (sort allLeaves).filter fun leaf => leaf.namespace == proof.namespace
    if actual.length ≠ proof.leaves.length then false
    else (actual.zip proof.leaves).all fun (a, p) => a == p

/-- The texts that are hashed while the tree is built. -/
def hashed (hemera : Hemera) : List NmtLeaf → Set String
  | [] => ∅
  | [leaf] => {leafText leaf}
  | first :: second :: rest =>
      let leaves := first :: second :: rest
      let mid := leaves.length / 2
      {pairText (buildTree hemera (leaves.take mid)) (buildTree hemera (leaves.drop mid))} ∪
        hashed hemera (leaves.take mid) ∪ hashed hemera (leaves.drop mid)
termination_by leaves => leaves.length
decreasing_by
  · simp only [List.length_take, List.length_cons]
    omega
  · simp only [List.length_drop, List.length_cons]
    omega

section Order

def NamespaceSorted (leaves : List NmtLeaf) : Prop :=
  leaves.Pairwise fun left right => left.namespace ≤ right.namespace

theorem leaf_le_trans (first second third : NmtLeaf) (earlier : le first second = true)
    (later : le second third = true) : le first third = true := by
  simp only [le, decide_eq_true_eq] at earlier later ⊢
  exact earlier.trans later

theorem leaf_le_total (left right : NmtLeaf) : (le left right || le right left) = true := by
  simp only [le, Bool.or_eq_true, decide_eq_true_eq]
  exact le_total _ _

theorem leaf_le_antisymm {left right : NmtLeaf} (below : le left right = true)
    (above : le right left = true) : left = right := by
  simp only [le, decide_eq_true_eq] at below above
  have same := toLex.injective (le_antisymm below above)
  obtain ⟨namespaces, hashes⟩ := Prod.mk.inj same
  cases left
  cases right
  cases namespaces
  cases hashes
  rfl

theorem sort_perm (leaves : List NmtLeaf) : (sort leaves).Perm leaves :=
  List.mergeSort_perm leaves le

theorem sort_pairwise (leaves : List NmtLeaf) :
    (sort leaves).Pairwise fun left right => le left right = true :=
  List.pairwise_mergeSort leaf_le_trans leaf_le_total leaves

theorem sort_namespaceSorted (leaves : List NmtLeaf) : NamespaceSorted (sort leaves) := by
  refine (sort_pairwise leaves).imp ?_
  intro left right below
  simp only [le, decide_eq_true_eq] at below
  exact (Prod.Lex.toLex_le_toLex.mp below).elim LT.lt.le fun same => same.1.le

theorem sort_congr {left right : List NmtLeaf} (permuted : left.Perm right) :
    sort left = sort right := by
  refine List.Perm.eq_of_pairwise (fun _ _ _ _ => leaf_le_antisymm) (sort_pairwise left)
    (sort_pairwise right) ?_
  exact ((sort_perm left).trans permuted).trans (sort_perm right).symm

end Order

section Bounds

variable {hemera : Hemera}

theorem buildTree_pair {leaves : List NmtLeaf} (several : 2 ≤ leaves.length) :
    buildTree hemera leaves = hashPair hemera
      (buildTree hemera (leaves.take (leaves.length / 2)))
      (buildTree hemera (leaves.drop (leaves.length / 2))) := by
  match leaves, several with
  | first :: second :: rest, _ => rw [buildTree]

theorem hashed_pair {leaves : List NmtLeaf} (several : 2 ≤ leaves.length) :
    hashed hemera leaves =
      {pairText (buildTree hemera (leaves.take (leaves.length / 2)))
        (buildTree hemera (leaves.drop (leaves.length / 2)))} ∪
      hashed hemera (leaves.take (leaves.length / 2)) ∪
      hashed hemera (leaves.drop (leaves.length / 2)) := by
  match leaves, several with
  | first :: second :: rest, _ => rw [hashed]

theorem halves_ne_nil {leaves : List NmtLeaf} (several : 2 ≤ leaves.length) :
    leaves.take (leaves.length / 2) ≠ [] ∧ leaves.drop (leaves.length / 2) ≠ [] := by
  constructor
  · rw [← List.length_pos_iff, List.length_take]
    omega
  · rw [← List.length_pos_iff, List.length_drop]
    omega

/-- A node carries the first and the last namespace of its sorted leaves. -/
theorem buildTree_bounds (hemera : Hemera) (leaves : List NmtLeaf) (nonempty : leaves ≠ [])
    (sorted : NamespaceSorted leaves) :
    (buildTree hemera leaves).minNs = (leaves.head nonempty).namespace ∧
      (buildTree hemera leaves).maxNs = (leaves.getLast nonempty).namespace := by
  induction leaves using buildTree.induct with
  | case1 => exact absurd rfl nonempty
  | case2 leaf =>
      rw [buildTree]
      exact ⟨rfl, rfl⟩
  | case3 first second rest leaves mid left right =>
      have several : 2 ≤ leaves.length := by simp [leaves]
      obtain ⟨leftNonempty, rightNonempty⟩ := halves_ne_nil several
      obtain ⟨leftMin, leftMax⟩ := left leftNonempty (sorted.sublist (List.take_sublist ..))
      obtain ⟨rightMin, rightMax⟩ := right rightNonempty (sorted.sublist (List.drop_sublist ..))
      have across : ∀ early ∈ leaves.take mid, ∀ late ∈ leaves.drop mid,
          early.namespace ≤ late.namespace := by
        have split : NamespaceSorted (leaves.take mid ++ leaves.drop mid) := by
          rw [List.take_append_drop]
          exact sorted
        exact (List.pairwise_append.mp split).2.2
      rw [buildTree_pair several]
      constructor
      · change min _ _ = _
        rw [leftMin, rightMin, min_eq_left (across _ (List.head_mem _) _ (List.head_mem _)),
          List.head_take]
      · change max _ _ = _
        rw [leftMax, rightMax,
          max_eq_right (across _ (List.getLast_mem _) _ (List.getLast_mem _)), List.getLast_drop]

end Bounds

section Texts

theorem append_left_cancel {front left right : String} (same : front ++ left = front ++ right) :
    left = right := by
  have lists := congrArg String.toList same
  rw [String.toList_append, String.toList_append] at lists
  exact String.toList_injective (List.append_cancel_left lists)

theorem append_right_cancel {left right back : String} (same : left ++ back = right ++ back) :
    left = right := by
  have lists := congrArg String.toList same
  rw [String.toList_append, String.toList_append] at lists
  exact String.toList_injective (List.append_cancel_right lists)

theorem append_cut {left right leftRest rightRest : String} (width : left.length = right.length)
    (same : left ++ leftRest = right ++ rightRest) : left = right ∧ leftRest = rightRest := by
  have lists := congrArg String.toList same
  rw [String.toList_append, String.toList_append] at lists
  obtain ⟨fronts, rests⟩ := List.append_inj lists width
  exact ⟨String.toList_injective fronts, String.toList_injective rests⟩

theorem pairText_eq (left right : NmtNode) : pairText left right =
    "nmt_node:" ++ (left.hash ++ (":" ++ (right.hash ++ (":" ++ (left.minNs ++
      (":" ++ right.maxNs)))))) := by
  delta pairText
  simp only [String.append_assoc]

theorem leafText_ne_pairText (leaf : NmtLeaf) (left right : NmtNode) :
    leafText leaf ≠ pairText left right := by
  intro same
  simp only [leafText, pairText_eq, String.append_assoc] at same
  exact absurd (append_cut (by decide) same).1 (by decide)

theorem leafText_inj {left right : NmtLeaf} (namespaces : left.namespace = right.namespace)
    (same : leafText left = leafText right) : left = right := by
  simp only [leafText, String.append_assoc, namespaces] at same
  have hashes := append_left_cancel (append_left_cancel (append_left_cancel same))
  cases left
  cases right
  cases namespaces
  cases hashes
  rfl

/-- The hashes have a fixed width, so a pair determines both; of the two bounds
it determines one when the other is known. -/
theorem pairText_cut {left right left' right' : NmtNode}
    (leftWidth : left.hash.length = left'.hash.length)
    (rightWidth : right.hash.length = right'.hash.length)
    (same : pairText left right = pairText left' right') :
    left.hash = left'.hash ∧ right.hash = right'.hash ∧
      (left.minNs = left'.minNs ↔ right.maxNs = right'.maxNs) := by
  rw [pairText_eq, pairText_eq] at same
  obtain ⟨lefts, rest⟩ := append_cut leftWidth (append_left_cancel same)
  obtain ⟨rights, bounds⟩ := append_cut rightWidth (append_left_cancel rest)
  have bounds := append_left_cancel bounds
  refine ⟨lefts, rights, ?_, ?_⟩
  · intro mins
    rw [mins] at bounds
    exact append_left_cancel (append_left_cancel bounds)
  · intro maxs
    rw [maxs] at bounds
    exact append_right_cancel bounds

end Texts

section Binding

variable {hemera : Hemera} {texts : Set String}

/-- What is assumed of the printed hash: a fixed width, no collision among the
texts that are hashed, and the value of the empty tree is not a hash. -/
structure Binds (hemera : Hemera) (texts : Set String) : Prop where
  width : ∀ digest, (hemera.toHex digest).length = 64
  free : Set.InjOn (hashText hemera) texts
  nonzero : ∀ text ∈ texts, hashText hemera text ≠ zeros

theorem buildTree_hash_length (binds : Binds hemera texts) (leaves : List NmtLeaf)
    (nonempty : leaves ≠ []) : (buildTree hemera leaves).hash.length = 64 := by
  match leaves, nonempty with
  | [leaf], _ =>
      rw [buildTree]
      exact binds.width _
  | first :: second :: rest, _ =>
      rw [buildTree]
      exact binds.width _

/-- The bounds that a pair text carries are those of the whole list. -/
theorem halves_bounds (hemera : Hemera) {leaves : List NmtLeaf} (several : 2 ≤ leaves.length)
    (nonempty : leaves ≠ []) (sorted : NamespaceSorted leaves) :
    (buildTree hemera (leaves.take (leaves.length / 2))).minNs = (leaves.head nonempty).namespace ∧
      (buildTree hemera (leaves.drop (leaves.length / 2))).maxNs =
        (leaves.getLast nonempty).namespace := by
  obtain ⟨leftNonempty, rightNonempty⟩ := halves_ne_nil several
  have left := (buildTree_bounds hemera _ leftNonempty
    (sorted.sublist (List.take_sublist ..))).1
  have right := (buildTree_bounds hemera _ rightNonempty
    (sorted.sublist (List.drop_sublist ..))).2
  rw [left, right, List.head_take, List.getLast_drop]
  exact ⟨rfl, rfl⟩

/-- The text of a node determines the hashes of both halves, and of the two bounds
one when the other is known. -/
theorem halves_cut (binds : Binds hemera texts) {left right : List NmtLeaf}
    (leftSeveral : 2 ≤ left.length) (rightSeveral : 2 ≤ right.length)
    (leftNonempty : left ≠ []) (rightNonempty : right ≠ [])
    (leftSorted : NamespaceSorted left) (rightSorted : NamespaceSorted right)
    (same : pairText (buildTree hemera (left.take (left.length / 2)))
        (buildTree hemera (left.drop (left.length / 2))) =
      pairText (buildTree hemera (right.take (right.length / 2)))
        (buildTree hemera (right.drop (right.length / 2)))) :
    (buildTree hemera (left.take (left.length / 2))).hash =
        (buildTree hemera (right.take (right.length / 2))).hash ∧
      (buildTree hemera (left.drop (left.length / 2))).hash =
        (buildTree hemera (right.drop (right.length / 2))).hash ∧
      ((left.head leftNonempty).namespace = (right.head rightNonempty).namespace ↔
        (left.getLast leftNonempty).namespace = (right.getLast rightNonempty).namespace) := by
  obtain ⟨leftHead, leftTail⟩ := halves_ne_nil leftSeveral
  obtain ⟨rightHead, rightTail⟩ := halves_ne_nil rightSeveral
  have cut := pairText_cut
    ((buildTree_hash_length binds _ leftHead).trans (buildTree_hash_length binds _ rightHead).symm)
    ((buildTree_hash_length binds _ leftTail).trans (buildTree_hash_length binds _ rightTail).symm)
    same
  obtain ⟨leftMin, leftMax⟩ := halves_bounds hemera leftSeveral leftNonempty leftSorted
  obtain ⟨rightMin, rightMax⟩ := halves_bounds hemera rightSeveral rightNonempty rightSorted
  rwa [leftMin, leftMax, rightMin, rightMax] at cut

/-- A leaf and a node with two halves have different hashes. -/
theorem leaf_hash_ne (binds : Binds hemera texts) {leaf : NmtLeaf} {leaves : List NmtLeaf}
    (several : 2 ≤ leaves.length) (leafHashed : hashed hemera [leaf] ⊆ texts)
    (leavesHashed : hashed hemera leaves ⊆ texts) :
    (buildTree hemera [leaf]).hash ≠ (buildTree hemera leaves).hash := by
  intro same
  rw [buildTree, buildTree_pair several] at same
  rw [hashed] at leafHashed
  rw [hashed_pair several] at leavesHashed
  have texts := binds.free (leafHashed rfl) (leavesHashed (.inl (.inl rfl))) same
  exact leafText_ne_pairText _ _ _ texts

/-- Below the root, the hash and one of the two bounds determine the leaves. -/
theorem leaves_eq_of_hash (binds : Binds hemera texts) (left : List NmtLeaf) :
    ∀ (leftNonempty : left ≠ []) (right : List NmtLeaf) (rightNonempty : right ≠ []),
      NamespaceSorted left → NamespaceSorted right →
      hashed hemera left ⊆ texts → hashed hemera right ⊆ texts →
      (buildTree hemera left).hash = (buildTree hemera right).hash →
      ((left.head leftNonempty).namespace = (right.head rightNonempty).namespace ∨
        (left.getLast leftNonempty).namespace = (right.getLast rightNonempty).namespace) →
      left = right := by
  induction left using buildTree.induct with
  | case1 => exact fun nonempty => absurd rfl nonempty
  | case2 leaf =>
      intro _ right rightNonempty _ _ leftHashed rightHashed same known
      match right, rightNonempty with
      | [other], _ =>
          rw [buildTree, buildTree] at same
          rw [hashed] at leftHashed rightHashed
          have texts := binds.free (leftHashed rfl) (rightHashed rfl) same
          have namespaces : leaf.namespace = other.namespace := known.elim id id
          rw [leafText_inj namespaces texts]
      | first :: second :: rest, _ =>
          exact absurd same (leaf_hash_ne binds (by simp) leftHashed rightHashed)
  | case3 first second rest leaves mid earlier later =>
      intro leftNonempty right rightNonempty leftSorted rightSorted leftHashed rightHashed same known
      have several : 2 ≤ leaves.length := by simp [leaves]
      match right, rightNonempty with
      | [other], _ =>
          exact absurd same.symm (leaf_hash_ne binds several rightHashed leftHashed)
      | first' :: second' :: rest', rightNonempty =>
          let others := first' :: second' :: rest'
          have othersSeveral : 2 ≤ others.length := by simp [others]
          rw [buildTree_pair several, buildTree_pair othersSeveral] at same
          rw [hashed_pair several] at leftHashed
          rw [hashed_pair othersSeveral] at rightHashed
          have texts := binds.free (leftHashed (.inl (.inl rfl))) (rightHashed (.inl (.inl rfl)))
            same
          obtain ⟨leftHead, leftTail⟩ := halves_ne_nil several
          obtain ⟨rightHead, rightTail⟩ := halves_ne_nil othersSeveral
          obtain ⟨lefts, rights, bounds⟩ := halves_cut binds several othersSeveral leftNonempty
            rightNonempty leftSorted rightSorted texts
          have heads := known.elim id bounds.mpr
          have takes : leaves.take mid = others.take (others.length / 2) := by
            refine earlier leftHead _ rightHead (leftSorted.sublist (List.take_sublist ..))
              (rightSorted.sublist (List.take_sublist ..))
              (fun _ inside => leftHashed (.inl (.inr inside)))
              (fun _ inside => rightHashed (.inl (.inr inside))) lefts (.inl ?_)
            rw [List.head_take, List.head_take]
            exact heads
          have drops : leaves.drop mid = others.drop (others.length / 2) := by
            refine later leftTail _ rightTail (leftSorted.sublist (List.drop_sublist ..))
              (rightSorted.sublist (List.drop_sublist ..)) (fun _ inside => leftHashed (.inr inside))
              (fun _ inside => rightHashed (.inr inside)) rights (.inr ?_)
            rw [List.getLast_drop, List.getLast_drop]
            exact bounds.mp heads
          calc leaves = leaves.take mid ++ leaves.drop mid := (List.take_append_drop ..).symm
            _ = others.take (others.length / 2) ++ others.drop (others.length / 2) := by
              rw [takes, drops]
            _ = others := List.take_append_drop ..

theorem exists_hashed (hemera : Hemera) (leaves : List NmtLeaf) (nonempty : leaves ≠ []) :
    ∃ text ∈ hashed hemera leaves, (buildTree hemera leaves).hash = hashText hemera text := by
  match leaves, nonempty with
  | [leaf], _ =>
      rw [buildTree, hashed]
      exact ⟨_, rfl, rfl⟩
  | first :: second :: rest, _ =>
      have several : 2 ≤ (first :: second :: rest).length := by simp
      rw [buildTree_pair several, hashed_pair several]
      exact ⟨_, .inl (.inl rfl), rfl⟩

theorem buildTree_inj (binds : Binds hemera texts) {left right : List NmtLeaf}
    (leftSorted : NamespaceSorted left) (rightSorted : NamespaceSorted right)
    (leftHashed : hashed hemera left ⊆ texts) (rightHashed : hashed hemera right ⊆ texts)
    (same : buildTree hemera left = buildTree hemera right) : left = right := by
  have empty : (buildTree hemera []).hash = zeros := by rw [buildTree]
  by_cases leftNonempty : left ≠ []
  · by_cases rightNonempty : right ≠ []
    · have leftMin := (buildTree_bounds hemera left leftNonempty leftSorted).1
      have rightMin := (buildTree_bounds hemera right rightNonempty rightSorted).1
      refine leaves_eq_of_hash binds left leftNonempty right rightNonempty leftSorted rightSorted
        leftHashed rightHashed (congrArg NmtNode.hash same) (.inl ?_)
      rw [← leftMin, ← rightMin, same]
    · obtain ⟨text, member, hash⟩ := exists_hashed hemera left leftNonempty
      rw [same, not_not.mp rightNonempty, empty] at hash
      exact absurd hash.symm (binds.nonzero text (leftHashed member))
  · by_cases rightNonempty : right ≠ []
    · obtain ⟨text, member, hash⟩ := exists_hashed hemera right rightNonempty
      rw [← same, not_not.mp leftNonempty, empty] at hash
      exact absurd hash.symm (binds.nonzero text (rightHashed member))
    · rw [not_not.mp leftNonempty, not_not.mp rightNonempty]

end Binding

theorem verifyFull_leaves {hemera : Hemera} {allLeaves : List NmtLeaf} {proof : CompletenessProof}
    (verified : verifyFull hemera allLeaves proof = true) :
    proof.root = build hemera allLeaves ∧ proof.leaves =
      (sort allLeaves).filter fun leaf => leaf.namespace == proof.namespace := by
  simp only [verifyFull] at verified
  split_ifs at verified with unverified lengths
  constructor
  · simp only [verify, Bool.not_eq_true'] at unverified
    split_ifs at unverified with foreign <;> simp_all
  · refine List.ext_getElem (not_not.mp lengths).symm ?_
    intro i leftBound rightBound
    have pair := List.all_eq_true.mp verified _ (List.getElem_mem
      (show i < (List.zip _ proof.leaves).length by rw [List.length_zip]; omega))
    rw [List.getElem_zip] at pair
    exact (beq_iff_eq.mp pair).symm

/-- The root determines the leaves up to their order, whatever characters they
contain; so a proof that is fully verified against it lists all leaves of its
namespace. -/
theorem root_binds_leaves (hemera : Hemera) (all other : List NmtLeaf)
    (binds : Binds hemera (hashed hemera (sort all) ∪ hashed hemera (sort other))) :
    (build hemera all = build hemera other → all.Perm other) ∧
    ∀ proof : CompletenessProof, proof.root = build hemera all →
      verifyFull hemera other proof = true →
      proof.leaves = (sort all).filter fun leaf => leaf.namespace == proof.namespace := by
  have inj : build hemera all = build hemera other → sort all = sort other :=
    buildTree_inj binds (sort_namespaceSorted all) (sort_namespaceSorted other)
      Set.subset_union_left Set.subset_union_right
  constructor
  · intro same
    exact (sort_perm all).symm.trans (inj same ▸ sort_perm other)
  · intro proof root verified
    obtain ⟨otherRoot, leaves⟩ := verifyFull_leaves verified
    rw [leaves, inj (root.symm.trans otherRoot)]

/-- Two leaves with one text, in both orders. -/
theorem root_binds_leaves_colons :
    let first : NmtLeaf := ⟨"a", "b:c"⟩
    let second : NmtLeaf := ⟨"a:b", "c"⟩
    leafText first = leafText second ∧
      Binds .truncating (hashed .truncating (sort [first, second]) ∪
        hashed .truncating (sort [second, first])) ∧
      build .truncating [first, second] = build .truncating [second, first] ∧
      [first, second].Perm [second, first] := by
  intro first second
  have swapped : sort [second, first] = sort [first, second] := sort_congr (List.Perm.swap ..)
  have sorted : sort [first, second] = [first, second] :=
    List.mergeSort_of_pairwise (by decide +kernel)
  have texts : hashed .truncating [first, second] ⊆
      {pairText (buildTree .truncating [first]) (buildTree .truncating [second]),
        leafText first} := by
    rw [hashed_pair (by decide)]
    simp only [hashed, List.length_cons, List.length_nil, Nat.reduceAdd, Nat.reduceDiv,
      List.take_succ_cons, List.take_zero, List.drop_succ_cons, List.drop_zero]
    rintro text ((rfl | rfl) | rfl)
    · exact .inl rfl
    · exact .inr rfl
    · exact .inr (by decide)
  have binds : Binds .truncating (hashed .truncating (sort [first, second]) ∪
      hashed .truncating (sort [second, first])) := by
    rw [swapped, sorted, Set.union_self]
    refine ⟨hexText_length, ?_, ?_⟩
    · refine Set.InjOn.mono texts (Set.injOn_pair.mpr ?_)
      simp only [buildTree]
      exact fun same => absurd same (by decide +kernel)
    · intro text member
      rcases texts member with rfl | rfl
      · simp only [buildTree]
        decide +kernel
      · decide +kernel
  have same : build .truncating [first, second] = build .truncating [second, first] := by
    rw [build, build, swapped]
  exact ⟨by decide, binds, same, (root_binds_leaves .truncating _ _ binds).1 same⟩

end Nmt

end Foculus.Store

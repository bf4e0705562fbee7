import Foculus.Settlement.TicketProof
import Mathlib.Algebra.Group.Pi.Basic
import Mathlib.Order.CompletePartialOrder

namespace Foculus.Settlement

open Data

/-! What a fold tree computes.

An accumulator stands for a vector of sums and a set of samples.  Folding adds
the vectors and unites the sets, whatever the two sides share, so the root of a
tree is determined by the collection of its leaves.  Only when the leaves share
no sample is it also the accumulator of all their tickets.
-/

abbrev SampleSet := Set (Particle × UInt64)

def SettlementTicket.key (ticket : SettlementTicket) : Particle × UInt64 :=
  (ticket.miner, ticket.nonce)

namespace ClusterAcc

def sums (acc : ClusterAcc) (i : Nat) : Fx := acc.sumM.getD i 0

def samples (acc : ClusterAcc) : SampleSet := {sample | sample ∈ acc.seen}

def measure (acc : ClusterAcc) : (Nat → Fx) × SampleSet := (acc.sums, acc.samples)

/-- An accumulator over `n` contributors whose count and commitment are those of
its samples and sums.  The commitment of an accumulator without samples is free:
it is the zero default in a fresh one. -/
structure Valid (hemera : Hemera) (n : Nat) (acc : ClusterAcc) : Prop where
  dimension : acc.sumM.length = n
  counted : acc.k = lenU64 acc.seen.size
  commits : acc.seen ≠ ∅ → acc.commitment = accCommitment hemera acc

theorem empty_valid (hemera : Hemera) (n : Nat) : (empty n).Valid hemera n where
  dimension := List.length_replicate
  counted := rfl
  commits inhabited := absurd rfl inhabited

theorem sums_empty (n : Nat) : (empty n).sums = 0 := by
  funext i
  simp [sums, empty, List.getD_eq_getElem?_getD, List.getElem?_replicate]
  split <;> rfl

theorem samples_empty (n : Nat) : (empty n).samples = ∅ := by
  ext sample
  simp [samples, empty]

theorem sumM_eq_iff {left right : ClusterAcc} (lengths : left.sumM.length = right.sumM.length) :
    left.sumM = right.sumM ↔ left.sums = right.sums := by
  refine ⟨fun same => by funext i; rw [sums, sums, same], fun same => ?_⟩
  apply List.ext_getElem lengths
  intro i leftBound rightBound
  have entry : left.sumM.getD i 0 = right.sumM.getD i 0 := congrFun same i
  rwa [List.getD_eq_getElem _ _ leftBound, List.getD_eq_getElem _ _ rightBound] at entry

theorem sums_eq_zero_iff {acc : ClusterAcc} : acc.sums = 0 ↔ ∀ sum ∈ acc.sumM, sum = 0 := by
  constructor
  · intro zero sum member
    obtain ⟨i, bound, rfl⟩ := List.getElem_of_mem member
    have entry : acc.sumM.getD i 0 = 0 := congrFun zero i
    rwa [List.getD_eq_getElem _ _ bound] at entry
  · intro zero
    funext i
    by_cases inside : i < acc.sumM.length
    · rw [sums, List.getD_eq_getElem _ _ inside]
      exact zero _ (List.getElem_mem inside)
    · rw [sums, List.getD_eq_default _ _ (Nat.le_of_not_lt inside)]
      rfl

theorem Valid.ext {hemera : Hemera} {n : Nat} {left right : ClusterAcc}
    (leftValid : left.Valid hemera n) (rightValid : right.Valid hemera n)
    (inhabited : left.seen ≠ ∅) (same : left.measure = right.measure) : left = right := by
  obtain ⟨sums, samples⟩ := Prod.mk.inj same
  have entries : left.sumM = right.sumM :=
    (sumM_eq_iff (leftValid.dimension.trans rightValid.dimension.symm)).mpr sums
  have seen : left.seen = right.seen :=
    Std.ExtTreeSet.ext_mem fun sample => Set.ext_iff.mp samples sample
  have counts : left.k = right.k := by
    rw [leftValid.counted, rightValid.counted, seen]
  have commitments : left.commitment = right.commitment := by
    rw [leftValid.commits inhabited, rightValid.commits (seen ▸ inhabited)]
    unfold accCommitment
    rw [entries, seen, counts]
  obtain ⟨_, _, _, _⟩ := left
  obtain ⟨_, _, _, _⟩ := right
  cases entries
  cases counts
  cases seen
  cases commitments
  rfl

end ClusterAcc

open ClusterAcc

theorem getD_zipWith_add {α : Type} [AddZeroClass α] {left right : List α}
    (lengths : left.length = right.length) (i : Nat) :
    (List.zipWith (· + ·) left right).getD i 0 = left.getD i 0 + right.getD i 0 := by
  by_cases inside : i < left.length
  · have rightInside : i < right.length := lengths ▸ inside
    simp [inside, rightInside]
  · have rightOutside : ¬ i < right.length := lengths ▸ inside
    simp [List.getD_eq_getElem?_getD, inside, rightOutside]

def joinMeasure (left right : (Nat → Fx) × SampleSet) : (Nat → Fx) × SampleSet :=
  (left.1 + right.1, left.2 ∪ right.2)

instance : Std.Associative joinMeasure where
  assoc first second third := by
    simp only [joinMeasure, add_assoc, Set.union_assoc]

instance : Std.Commutative joinMeasure where
  comm first second := by
    simp only [joinMeasure, add_comm, Set.union_comm]

instance : Std.LawfulRightIdentity joinMeasure (0, ∅) where
  right_id measure := by
    simp only [joinMeasure, add_zero, Set.union_empty]

theorem size_union_of_inter_empty {left right : Samples} (empty : (left ∩ right).size = 0) :
    (left ∪ right).size = left.size + right.size := by
  apply Std.ExtTreeSet.size_union_of_not_mem
  intro sample member other
  have both : sample ∈ left ∩ right := Std.ExtTreeSet.mem_inter_iff.mpr ⟨member, other⟩
  rw [Std.ExtTreeSet.eq_empty_iff_size_eq_zero.mpr empty] at both
  exact Std.ExtTreeSet.not_mem_empty both

/-- Folding two accumulators over the same contributors joins what they stand
for, also when they share samples. -/
theorem foldAcc_join {hemera : Hemera} {n : Nat} {left right : ClusterAcc}
    (leftValid : left.Valid hemera n) (rightValid : right.Valid hemera n) :
    (foldAcc hemera left right).Valid hemera n ∧
      (foldAcc hemera left right).measure = joinMeasure left.measure right.measure := by
  have lengths : left.sumM.length = right.sumM.length :=
    leftValid.dimension.trans rightValid.dimension.symm
  have count : (if (left.seen ∩ right.seen).size = 0 then satAdd left.k right.k
      else lenU64 (left.seen ∪ right.seen).size) = lenU64 (left.seen ∪ right.seen).size := by
    split_ifs with disjoint
    · rw [leftValid.counted, rightValid.counted, satAdd_lenU64,
        size_union_of_inter_empty disjoint]
    · rfl
  have folded : foldAcc hemera left right = ClusterAcc.committed hemera {
      sumM := List.zipWith (· + ·) left.sumM right.sumM
      k := lenU64 (left.seen ∪ right.seen).size
      seen := left.seen ∪ right.seen
      commitment := Particle.zero } := by
    rw [foldAcc, if_pos lengths, count]
  rw [folded]
  refine ⟨⟨?_, rfl, fun _ => rfl⟩, ?_⟩
  · change (List.zipWith (· + ·) left.sumM right.sumM).length = n
    rw [List.length_zipWith, lengths, Nat.min_self, rightValid.dimension]
  · refine Prod.ext (funext fun i => getD_zipWith_add lengths i) ?_
    ext sample
    exact Std.ExtTreeSet.mem_union_iff

theorem absorbTicket_fresh (hemera : Hemera) {acc : ClusterAcc} {ticket : SettlementTicket}
    (lengths : acc.sumM.length = ticket.marginals.length) (fresh : ticket.key ∉ acc.samples) :
    absorbTicket hemera acc ticket = ClusterAcc.committed hemera { acc with
      sumM := List.zipWith (· + ·) acc.sumM ticket.marginals
      k := satAdd acc.k 1
      seen := acc.seen.insert (ticket.miner, ticket.nonce) } := by
  have unknown : ¬ acc.seen.contains (ticket.miner, ticket.nonce) = true := fresh
  rw [absorbTicket, if_neg unknown, if_neg (fun mismatch => mismatch.1 lengths),
    if_neg (not_not.mpr lengths)]

/-- Absorbing a ticket remembers its pair, and adds its marginals unless the
pair was known. -/
theorem absorbTicket_spec {hemera : Hemera} {n : Nat} {acc : ClusterAcc} (valid : acc.Valid hemera n)
    {ticket : SettlementTicket} (dimension : ticket.marginals.length = n) :
    (absorbTicket hemera acc ticket).Valid hemera n ∧
      (absorbTicket hemera acc ticket).samples = acc.samples ∪ {ticket.key} ∧
      (ticket.key ∈ acc.samples → (absorbTicket hemera acc ticket).sums = acc.sums) ∧
      (ticket.key ∉ acc.samples → (absorbTicket hemera acc ticket).sums =
        acc.sums + fun i => ticket.marginals.getD i 0) := by
  by_cases known : acc.seen.contains (ticket.miner, ticket.nonce)
  · have absorbed : absorbTicket hemera acc ticket = acc := if_pos known
    have member : ticket.key ∈ acc.samples := known
    rw [absorbed]
    refine ⟨valid, ?_, fun _ => rfl, fun unknown => absurd member unknown⟩
    exact (Set.union_eq_left.mpr (Set.singleton_subset_iff.mpr member)).symm
  · have lengths : acc.sumM.length = ticket.marginals.length :=
      valid.dimension.trans dimension.symm
    have unknown : ticket.key ∉ acc.samples := fun member => known member
    have absorbed := absorbTicket_fresh hemera lengths unknown
    have size : (acc.seen.insert (ticket.miner, ticket.nonce)).size = acc.seen.size + 1 := by
      rw [Std.ExtTreeSet.size_insert, if_neg known]
    rw [absorbed]
    refine ⟨⟨?_, ?_, fun _ => rfl⟩, ?_, fun member => absurd member unknown, fun _ => ?_⟩
    · change (List.zipWith (· + ·) acc.sumM ticket.marginals).length = n
      rw [List.length_zipWith, lengths, Nat.min_self, dimension]
    · change satAdd acc.k 1 = lenU64 (acc.seen.insert (ticket.miner, ticket.nonce)).size
      rw [valid.counted, size, ← lenU64_one, satAdd_lenU64]
    · ext sample
      change sample ∈ acc.seen.insert (ticket.miner, ticket.nonce) ↔ _
      rw [Std.ExtTreeSet.mem_insert, Std.LawfulEqCmp.compare_eq_iff_eq]
      constructor
      · intro either
        rcases either with here | before
        · exact .inr here.symm
        · exact .inl before
      · intro either
        rcases either with before | here
        · exact .inr before
        · exact .inl (Eq.symm here)
    · exact funext fun i => getD_zipWith_add lengths i

theorem foldl_absorbTicket {hemera : Hemera} {n : Nat} {acc : ClusterAcc}
    (valid : acc.Valid hemera n) {tickets : List SettlementTicket}
    (dimension : ∀ ticket ∈ tickets, ticket.marginals.length = n) :
    (tickets.foldl (absorbTicket hemera) acc).Valid hemera n ∧
      (tickets.foldl (absorbTicket hemera) acc).samples =
        acc.samples ∪ {sample | ∃ ticket ∈ tickets, ticket.key = sample} := by
  induction tickets generalizing acc with
  | nil => exact ⟨valid, by simp⟩
  | cons ticket rest ih =>
      obtain ⟨absorbed, samples, _⟩ := absorbTicket_spec valid (dimension ticket (by simp))
      obtain ⟨restValid, restSamples⟩ := ih absorbed fun other member =>
        dimension other (by simp [member])
      refine ⟨restValid, ?_⟩
      rw [List.foldl_cons, restSamples, samples, Set.union_assoc]
      congr 1
      ext sample
      simp only [Set.mem_union, Set.mem_singleton_iff, Set.mem_ofPred_eq, List.mem_cons,
        exists_eq_or_imp]
      exact or_congr_left eq_comm

theorem selfFold_valid (hemera : Hemera) {n : Nat} {tickets : List SettlementTicket}
    (dimension : ∀ ticket ∈ tickets, ticket.marginals.length = n) :
    (selfFold hemera n tickets).Valid hemera n :=
  (foldl_absorbTicket (empty_valid hemera n) dimension).1

theorem selfFold_samples {hemera : Hemera} {n : Nat} {tickets : List SettlementTicket}
    (dimension : ∀ ticket ∈ tickets, ticket.marginals.length = n) :
    (selfFold hemera n tickets).samples = {sample | ∃ ticket ∈ tickets, ticket.key = sample} := by
  rw [selfFold, (foldl_absorbTicket (empty_valid hemera n) dimension).2, samples_empty,
    Set.empty_union]

theorem selfFold_append_singleton (hemera : Hemera) (n : Nat) (tickets : List SettlementTicket)
    (ticket : SettlementTicket) :
    selfFold hemera n (tickets ++ [ticket]) =
      absorbTicket hemera (selfFold hemera n tickets) ticket := List.foldl_append

/-- Tickets of which no two are the same sample are all counted and summed. -/
theorem selfFold_distinct (hemera : Hemera) {n : Nat} {tickets : List SettlementTicket}
    (dimension : ∀ ticket ∈ tickets, ticket.marginals.length = n)
    (distinct : (tickets.map SettlementTicket.key).Nodup) :
    (selfFold hemera n tickets).sumM = tickets.foldl (fun sums ticket =>
        List.zipWith (· + ·) sums ticket.marginals) (List.replicate n 0) ∧
      (selfFold hemera n tickets).k = lenU64 tickets.length := by
  induction tickets using List.reverseRecOn with
  | nil => exact ⟨rfl, rfl⟩
  | append_singleton tickets ticket ih =>
      rw [List.map_append, List.nodup_append] at distinct
      have earlier (other : SettlementTicket) (member : other ∈ tickets) :
          other.marginals.length = n := dimension other (List.mem_append_left _ member)
      obtain ⟨sums, count⟩ := ih earlier distinct.1
      have fresh : ticket.key ∉ (selfFold hemera n tickets).samples := by
        rw [selfFold_samples earlier]
        intro known
        obtain ⟨other, member, same⟩ := known
        exact distinct.2.2 other.key (List.mem_map_of_mem member) ticket.key
          (List.mem_singleton_self _) same
      have lengths : (selfFold hemera n tickets).sumM.length = ticket.marginals.length :=
        (selfFold_valid hemera earlier).dimension.trans (dimension ticket (by simp)).symm
      rw [selfFold_append_singleton, absorbTicket_fresh hemera lengths fresh]
      constructor
      · rw [List.foldl_append, ← sums]
        rfl
      · rw [List.length_append, List.length_singleton, ← satAdd_lenU64, ← count]
        rfl

theorem foldl_absorbTicket_sums {hemera : Hemera} {n : Nat} {acc : ClusterAcc}
    (valid : acc.Valid hemera n) {tickets : List SettlementTicket}
    (dimension : ∀ ticket ∈ tickets, ticket.marginals.length = n)
    (fresh : ∀ ticket ∈ tickets, ticket.key ∉ acc.samples) :
    (tickets.foldl (absorbTicket hemera) acc).sums =
      acc.sums + (selfFold hemera n tickets).sums := by
  induction tickets using List.reverseRecOn with
  | nil => rw [selfFold, List.foldl_nil, List.foldl_nil, sums_empty, add_zero]
  | append_singleton tickets ticket ih =>
      have before (other : SettlementTicket) (member : other ∈ tickets) :
          other ∈ tickets ++ [ticket] := List.mem_append_left _ member
      have width := dimension ticket (by simp)
      have earlier := fun other member => dimension other (before other member)
      have sums := ih earlier fun other member => fresh other (before other member)
      obtain ⟨leftValid, leftSamples⟩ := foldl_absorbTicket valid earlier
      obtain ⟨_, _, leftKnown, leftNew⟩ := absorbTicket_spec leftValid width
      obtain ⟨_, _, rightKnown, rightNew⟩ := absorbTicket_spec (selfFold_valid hemera earlier) width
      -- the accumulator's own samples do not decide whether the ticket is new
      have agree : ticket.key ∈ (tickets.foldl (absorbTicket hemera) acc).samples ↔
          ticket.key ∈ (selfFold hemera n tickets).samples := by
        rw [leftSamples, selfFold_samples earlier, Set.mem_union]
        exact or_iff_right (fresh ticket (by simp))
      rw [List.foldl_append, List.foldl_cons, List.foldl_nil, selfFold_append_singleton]
      by_cases known : ticket.key ∈ (selfFold hemera n tickets).samples
      · rw [leftKnown (agree.mpr known), rightKnown known, sums]
      · rw [leftNew (mt agree.mp known), rightNew known, sums, add_assoc]

theorem selfFold_append {hemera : Hemera} {n : Nat} {first second : List SettlementTicket}
    (firstDimension : ∀ ticket ∈ first, ticket.marginals.length = n)
    (secondDimension : ∀ ticket ∈ second, ticket.marginals.length = n)
    (disjoint : Disjoint (selfFold hemera n first).samples (selfFold hemera n second).samples) :
    (selfFold hemera n (first ++ second)).measure =
      joinMeasure (selfFold hemera n first).measure (selfFold hemera n second).measure := by
  have unrolled : selfFold hemera n (first ++ second) =
      second.foldl (absorbTicket hemera) (selfFold hemera n first) := by
    rw [selfFold, List.foldl_append]
    rfl
  have valid := selfFold_valid hemera firstDimension
  rw [unrolled]
  refine Prod.ext ?_ ?_
  · refine foldl_absorbTicket_sums valid secondDimension fun ticket member => ?_
    refine Set.disjoint_right.mp disjoint ?_
    rw [selfFold_samples secondDimension]
    exact ⟨ticket, member, rfl⟩
  · change (second.foldl (absorbTicket hemera) (selfFold hemera n first)).samples = _
    rw [(foldl_absorbTicket valid secondDimension).2, ← selfFold_samples secondDimension]
    rfl

theorem flatten_dimension {n : Nat} {batches : List (List SettlementTicket)}
    (dimension : ∀ batch ∈ batches, ∀ ticket ∈ batch, ticket.marginals.length = n) :
    ∀ ticket ∈ batches.flatten, ticket.marginals.length = n := by
  intro ticket member
  obtain ⟨batch, batchMember, inside⟩ := List.mem_flatten.mp member
  exact dimension batch batchMember ticket inside

/-- The accumulator of all tickets of batches that share no sample is the join
of the batches' accumulators. -/
theorem selfFold_flatten {hemera : Hemera} {n : Nat} {batches : List (List SettlementTicket)}
    (dimension : ∀ batch ∈ batches, ∀ ticket ∈ batch, ticket.marginals.length = n)
    (disjoint : batches.Pairwise fun first second =>
      Disjoint (selfFold hemera n first).samples (selfFold hemera n second).samples) :
    (selfFold hemera n batches.flatten).measure =
      ((batches.map (selfFold hemera n)).map measure).foldr joinMeasure (0, ∅) := by
  induction batches with
  | nil => exact Prod.ext (sums_empty n) (samples_empty n)
  | cons batch rest ih =>
      obtain ⟨apart, restDisjoint⟩ := List.pairwise_cons.mp disjoint
      have restDimension : ∀ other ∈ rest, ∀ ticket ∈ other, ticket.marginals.length = n :=
        fun other member => dimension other (by simp [member])
      have flatDimension := flatten_dimension restDimension
      have separate : Disjoint (selfFold hemera n batch).samples
          (selfFold hemera n rest.flatten).samples := by
        refine Set.disjoint_right.mpr fun sample member => ?_
        rw [selfFold_samples flatDimension] at member
        obtain ⟨ticket, ticketMember, rfl⟩ := member
        obtain ⟨other, otherMember, inside⟩ := List.mem_flatten.mp ticketMember
        refine Set.disjoint_right.mp (apart other otherMember) ?_
        rw [selfFold_samples (restDimension other otherMember)]
        exact ⟨ticket, inside, rfl⟩
      rw [List.flatten_cons, selfFold_append (dimension batch (by simp)) flatDimension separate,
        ih restDimension restDisjoint]
      rfl

theorem foldTree_root {hemera : Hemera} {n : Nat} {leaves : List ClusterAcc}
    (nonempty : leaves ≠ []) (valid : ∀ leaf ∈ leaves, leaf.Valid hemera n) :
    (treeRoot hemera leaves).Valid hemera n ∧
      (treeRoot hemera leaves).measure = (leaves.map measure).foldr joinMeasure (0, ∅) := by
  obtain ⟨root, reached, rootValid, total⟩ := FoldTree.levels_root (fun _ _ _ => foldAcc_join)
    (Nat.le_refl leaves.length) nonempty valid
  rw [treeRoot, reached]
  exact ⟨rootValid, total⟩

theorem grindFold_result {hemera : Hemera} {beacon cluster miner : Particle} {level : Nat}
    {left right : ClusterAcc} {startNonce maxAttempts target : UInt64} {ticket : FoldTicket}
    (won : grindFold hemera beacon cluster miner level left right startNonce maxAttempts target =
      some ticket) : ticket.result = foldAcc hemera left right := by
  obtain ⟨i, _, tried⟩ := List.exists_of_findSome?_eq_some won
  unfold tryFoldTicket at tried
  dsimp only at tried
  split at tried
  · cases tried
  · cases tried
    rfl

/-- The lottery of `assemble_fold_tree` does not change what is folded. -/
theorem assembleFoldTree_eq (hemera : Hemera) (beacon cluster miner : Particle)
    (leaves : List ClusterAcc) (foldTarget : UInt64) :
    assembleFoldTree hemera beacon cluster miner leaves foldTarget = treeRoot hemera leaves := by
  have combine : (fun (level : Nat) (left right : ClusterAcc) =>
      ((grindFold hemera beacon cluster miner (levelU32 level) left right 0 64 foldTarget).map
        FoldTicket.result).getD (foldAcc hemera left right)) = fun _ => foldAcc hemera := by
    funext level left right
    cases won : grindFold hemera beacon cluster miner (levelU32 level) left right 0 64
        foldTarget with
    | none => rfl
    | some ticket => exact grindFold_result won
  rw [assembleFoldTree, combine, treeRoot]

/-- Over leaves that share no sample, both tree builders return the accumulator
of all tickets, in whatever order the leaves come. -/
theorem foldTrees_eq_selfFold (hemera : Hemera) (zheng : Zheng) (complete : Step.Complete zheng)
    (n : Nat) (batches : List (List SettlementTicket))
    (dimension : ∀ batch ∈ batches, ∀ ticket ∈ batch, ticket.marginals.length = n)
    (disjoint : batches.Pairwise fun first second => ∀ sample,
      sample ∈ (selfFold hemera n first).seen → sample ∉ (selfFold hemera n second).seen)
    (sampled : ∃ batch ∈ batches, batch ≠ []) (leaves : List ClusterAcc)
    (permuted : leaves.Perm (batches.map (selfFold hemera n))) (beacon cluster miner : Particle)
    (foldTarget : UInt64) :
    assembleFoldTree hemera beacon cluster miner leaves foldTarget =
        selfFold hemera n batches.flatten ∧
      ∃ sealed, proveFoldTree hemera zheng beacon cluster leaves =
        .ok (selfFold hemera n batches.flatten, sealed) := by
  obtain ⟨batch, batchMember, inhabited⟩ := sampled
  have leafMember : selfFold hemera n batch ∈ leaves :=
    permuted.mem_iff.mpr (List.mem_map_of_mem batchMember)
  have nonempty : leaves ≠ [] := List.ne_nil_of_mem leafMember
  have leavesValid : ∀ leaf ∈ leaves, leaf.Valid hemera n := by
    intro leaf member
    obtain ⟨batch, batchMember, rfl⟩ := List.mem_map.mp (permuted.mem_iff.mp member)
    exact selfFold_valid hemera (dimension batch batchMember)
  have flatDimension := flatten_dimension dimension
  have apart : batches.Pairwise fun first second =>
      Disjoint (selfFold hemera n first).samples (selfFold hemera n second).samples :=
    disjoint.imp fun separate => Set.disjoint_left.mpr separate
  have seen : (selfFold hemera n batches.flatten).seen ≠ ∅ := by
    obtain ⟨ticket, rest, rfl⟩ := List.exists_cons_of_ne_nil inhabited
    have member : ticket.key ∈ (selfFold hemera n batches.flatten).samples := by
      rw [selfFold_samples flatDimension]
      exact ⟨ticket, List.mem_flatten.mpr ⟨_, batchMember, by simp⟩, rfl⟩
    intro empty
    have absent : ticket.key ∈ (∅ : Samples) := empty ▸ member
    exact Std.ExtTreeSet.not_mem_empty absent
  obtain ⟨rootValid, rootMeasure⟩ := foldTree_root nonempty leavesValid
  have total : (selfFold hemera n batches.flatten).measure = (leaves.map measure).foldr
      joinMeasure (0, ∅) := by
    rw [selfFold_flatten dimension apart]
    exact (permuted.map measure).foldr_op_eq.symm
  have root := (selfFold_valid hemera flatDimension).ext rootValid seen
    (total.trans rootMeasure.symm)
  refine ⟨by rw [assembleFoldTree_eq, root], ?_⟩
  obtain ⟨sealed, proved, _⟩ := proveFoldTree_ok complete hemera beacon cluster nonempty
  exact ⟨sealed, by rw [proved, root]⟩

/-- A ticket of the zero miner in a cluster with one contributor. -/
def ticketOf (nonce : UInt64) (marginal : Fx) : SettlementTicket where
  miner := Particle.zero
  nonce
  marginals := [marginal]
  commitment := Particle.zero
  score := 0

/-- An empty leaf between two leaves with one ticket each, put in front. -/
theorem foldTrees_eq_selfFold_three_leaves :
    let batches := [[ticketOf 1 Fx.one], [], [ticketOf 2 Fx.one]]
    let fold := selfFold .truncating 1
    (∀ batch ∈ batches, ∀ ticket ∈ batch, ticket.marginals.length = 1) ∧
      (batches.Pairwise fun first second => ∀ sample,
        sample ∈ (fold first).seen → sample ∉ (fold second).seen) ∧
      assembleFoldTree .truncating Particle.zero Particle.zero Particle.zero
        [fold [], fold [ticketOf 1 Fx.one], fold [ticketOf 2 Fx.one]] 0 = fold batches.flatten := by
  intro batches fold
  have dimension : ∀ batch ∈ batches, ∀ ticket ∈ batch, ticket.marginals.length = 1 := by
    decide
  have samples (batch : List SettlementTicket) (member : batch ∈ batches)
      (sample : Particle × UInt64) :
      sample ∈ (fold batch).seen ↔ ∃ ticket ∈ batch, ticket.key = sample :=
    Set.ext_iff.mp (selfFold_samples (dimension batch member)) sample
  have disjoint : batches.Pairwise fun first second => ∀ sample,
      sample ∈ (fold first).seen → sample ∉ (fold second).seen := by
    refine List.Pairwise.imp_of_mem (R := fun first second => ∀ left ∈ first, ∀ right ∈ second,
      left.key ≠ right.key) ?_ (by decide)
    intro first second firstMember secondMember apart sample inFirst inSecond
    obtain ⟨left, leftMember, leftKey⟩ := (samples first firstMember sample).mp inFirst
    obtain ⟨right, rightMember, rightKey⟩ := (samples second secondMember sample).mp inSecond
    exact apart left leftMember right rightMember (leftKey.trans rightKey.symm)
  have permuted : [fold [], fold [ticketOf 1 Fx.one], fold [ticketOf 2 Fx.one]].Perm
      (batches.map fold) := List.Perm.swap _ _ _
  exact ⟨dimension, disjoint, (foldTrees_eq_selfFold .truncating Step.counting
    Step.counting_complete 1 batches dimension disjoint ⟨[ticketOf 1 Fx.one], by simp [batches], by simp⟩ _ permuted
    Particle.zero Particle.zero Particle.zero 0).1⟩

/-- A leaf as a miner makes it from tickets over `n` contributors. -/
def SelfFolded (hemera : Hemera) (n : Nat) (leaf : ClusterAcc) : Prop :=
  ∃ tickets : List SettlementTicket, (∀ ticket ∈ tickets, ticket.marginals.length = n) ∧
    leaf = selfFold hemera n tickets

theorem samples_subset_join {leaves : List ClusterAcc} {leaf : ClusterAcc}
    (member : leaf ∈ leaves) :
    leaf.samples ⊆ ((leaves.map measure).foldr joinMeasure (0, ∅)).2 := by
  obtain ⟨front, back, rfl⟩ := List.append_of_mem member
  have first : (front ++ leaf :: back).Perm (leaf :: (front ++ back)) := List.perm_middle
  rw [(first.map measure).foldr_op_eq, List.map_cons, List.foldr_cons]
  exact Set.subset_union_left

/-- Joining a leaf whose samples are all known keeps the count, and keeps the
sums exactly when those of the leaf are zero. -/
theorem joined_harmless_iff {hemera : Hemera} {n : Nat} {root root' leaf : ClusterAcc}
    (valid : root.Valid hemera n) (valid' : root'.Valid hemera n)
    (joined : root.measure = joinMeasure leaf.measure root'.measure)
    (included : leaf.samples ⊆ root'.samples) :
    (root.k = root'.k ∧ root.sumM = root'.sumM) ↔ ∀ sum ∈ leaf.sumM, sum = 0 := by
  obtain ⟨sums, samples⟩ : root.sums = leaf.sums + root'.sums ∧
      root.samples = leaf.samples ∪ root'.samples := Prod.mk.inj joined
  have seen : root.seen = root'.seen := by
    rw [Set.union_eq_right.mpr included] at samples
    exact Std.ExtTreeSet.ext_mem fun sample => Set.ext_iff.mp samples sample
  have counts : root.k = root'.k := by
    rw [valid.counted, valid'.counted, seen]
  rw [sumM_eq_iff (valid.dimension.trans valid'.dimension.symm), ← sums_eq_zero_iff]
  constructor
  · intro same
    rw [same.2] at sums
    exact add_eq_right.mp sums.symm
  · intro zero
    exact ⟨counts, by rw [sums, zero, zero_add]⟩

/-- A leaf that is in the list anyway changes nothing in the root's count, and
nothing in its sums exactly when its own sums are all zero. -/
theorem repeated_leaf_harmless_iff (hemera : Hemera) (zheng : Zheng)
    (complete : Step.Complete zheng) (beacon cluster : Particle) (n : Nat)
    (before after : List ClusterAcc) (repeated : ClusterAcc)
    (folded : ∀ leaf ∈ before ++ after, SelfFolded hemera n leaf)
    (member : repeated ∈ before ++ after) :
    ∃ root sealed root' sealed',
      proveFoldTree hemera zheng beacon cluster (before ++ repeated :: after) =
        .ok (root, sealed) ∧
      proveFoldTree hemera zheng beacon cluster (before ++ after) = .ok (root', sealed') ∧
      ((root.k = root'.k ∧ root.sumM = root'.sumM) ↔ ∀ sum ∈ repeated.sumM, sum = 0) := by
  have validOnce : ∀ leaf ∈ before ++ after, leaf.Valid hemera n := by
    intro leaf leafMember
    obtain ⟨tickets, dimension, rfl⟩ := folded leaf leafMember
    exact selfFold_valid hemera dimension
  have permuted : (before ++ repeated :: after).Perm (repeated :: (before ++ after)) :=
    List.perm_middle
  have validTwice : ∀ leaf ∈ before ++ repeated :: after, leaf.Valid hemera n := by
    intro leaf leafMember
    rcases List.mem_cons.mp (permuted.mem_iff.mp leafMember) with rfl | once
    · exact validOnce leaf member
    · exact validOnce leaf once
  obtain ⟨sealed, proved, _⟩ := proveFoldTree_ok complete hemera beacon cluster
    (List.ne_nil_of_mem (permuted.mem_iff.mpr List.mem_cons_self))
  obtain ⟨sealed', proved', _⟩ := proveFoldTree_ok complete hemera beacon cluster
    (List.ne_nil_of_mem member)
  refine ⟨_, sealed, _, sealed', proved, proved', ?_⟩
  obtain ⟨twice, twiceMeasure⟩ := foldTree_root
    (List.ne_nil_of_mem (permuted.mem_iff.mpr List.mem_cons_self)) validTwice
  obtain ⟨once, onceMeasure⟩ := foldTree_root (List.ne_nil_of_mem member) validOnce
  rw [(permuted.map measure).foldr_op_eq, List.map_cons, List.foldr_cons, ← onceMeasure]
    at twiceMeasure
  -- the copy that is there anyway brings all samples of the repeated leaf
  have included := samples_subset_join member
  rw [← onceMeasure] at included
  exact joined_harmless_iff twice once twiceMeasure included

theorem repeated_leaf_harmless_iff_zero_marginal :
    let leaf := selfFold .truncating 1 [ticketOf 1 0]
    SelfFolded .truncating 1 leaf ∧ (∀ sum ∈ leaf.sumM, sum = 0) ∧
      ∃ root sealed root' sealed',
        proveFoldTree .truncating Step.counting Particle.zero Particle.zero [leaf, leaf] =
          .ok (root, sealed) ∧
        proveFoldTree .truncating Step.counting Particle.zero Particle.zero [leaf] =
          .ok (root', sealed') ∧
        root.k = root'.k ∧ root.sumM = root'.sumM := by
  intro leaf
  have folded : SelfFolded .truncating 1 leaf := ⟨[ticketOf 1 0], by decide, rfl⟩
  have zero : ∀ sum ∈ leaf.sumM, sum = 0 := by decide +kernel
  obtain ⟨root, sealed, root', sealed', twice, once, harmless⟩ := repeated_leaf_harmless_iff
    .truncating Step.counting Step.counting_complete Particle.zero Particle.zero 1 [] [leaf] leaf
    (by simpa using folded) (by simp)
  exact ⟨folded, zero, root, sealed, root', sealed', twice, once, harmless.mpr zero⟩

/-- The same leaf with a marginal of one is counted once and summed twice. -/
theorem repeated_leaf_doubles :
    let leaf := selfFold .truncating 1 [ticketOf 1 Fx.one]
    ((proveFoldTree .truncating Step.counting Particle.zero Particle.zero [leaf]).toOption.map
        fun result => (result.1.k, result.1.sumM)) = some (1, [Fx.one]) ∧
      ((proveFoldTree .truncating Step.counting Particle.zero Particle.zero
        [leaf, leaf]).toOption.map fun result => (result.1.k, result.1.sumM)) =
          some (1, [Fx.one + Fx.one]) ∧
      Fx.one + Fx.one ≠ Fx.one := by
  decide +kernel

end Foculus.Settlement

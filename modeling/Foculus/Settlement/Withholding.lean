import Foculus.Crates.Number
import Foculus.Data.Average
import Foculus.Settlement.FoldTree
import Mathlib.Data.Rat.Cast.Order

namespace Foculus.Settlement.Exact

open Data

/-! # What withholding can gain

Tickets, their accumulator and the mean shares once more, over any numbers.  Over the
fixed-point numbers of the crate they are those of the model; over the rationals the
bound of `withholding_bias_bound` holds for every choice of the withheld tickets. -/

structure Ticket (α : Type) where
  miner : Particle
  nonce : UInt64
  marginals : List α
  commitment : Particle
  score : UInt64

def Ticket.key {α : Type} (ticket : Ticket α) : Particle × UInt64 := (ticket.miner, ticket.nonce)

structure Acc (α : Type) where
  sumM : List α
  k : UInt64
  seen : Samples
  commitment : Particle

section Code

variable {α : Type} [Zero α] [Add α]

def Acc.empty (nContrib : Nat) : Acc α where
  sumM := List.replicate nContrib 0
  k := 0
  seen := ∅
  commitment := Particle.zero

/-- `commit` hashes the accumulator, which takes the bytes of its numbers. -/
def absorbTicket (commit : Acc α → Particle) (acc : Acc α) (ticket : Ticket α) : Acc α :=
  if acc.seen.contains (ticket.miner, ticket.nonce) then acc
  else
    let seen := acc.seen.insert (ticket.miner, ticket.nonce)
    if acc.sumM.length ≠ ticket.marginals.length ∧ acc.k ≠ 0 then { acc with seen }
    else
      let sumM := if acc.sumM.length ≠ ticket.marginals.length then
        List.replicate ticket.marginals.length 0 else acc.sumM
      let acc := { acc with
        sumM := List.zipWith (· + ·) sumM ticket.marginals
        k := satAdd acc.k 1
        seen }
      { acc with commitment := commit acc }

def selfFold (commit : Acc α → Particle) (nContrib : Nat) (tickets : List (Ticket α)) : Acc α :=
  tickets.foldl (absorbTicket commit) (Acc.empty nContrib)

variable [One α] [Sub α] [Mul α] [Div α] [IntCast α]

def Acc.meanShares (acc : Acc α) (neurons : List Particle) : List (Particle × α) :=
  if acc.k = 0 ∨ acc.sumM.length ≠ neurons.length then neurons.map fun neuron => (neuron, 0)
  else
    let inv := 1 / (acc.k.toInt64.toInt : α)
    (neurons.zip acc.sumM).map fun (neuron, sum) => (neuron, sum * inv)

def withholdingBiasBound (range q : α) : α := range * (q / (1 - q))

end Code

section FixedPoint

variable (tru : Tru) (hemera : Hemera)

def ofTicket (ticket : SettlementTicket) : Ticket tru.Number :=
  ⟨ticket.miner, ticket.nonce, ticket.marginals, ticket.commitment, ticket.score⟩

def ofAcc (acc : ClusterAcc) : Acc tru.Number := ⟨acc.sumM, acc.k, acc.seen, acc.commitment⟩

def commitNumber (acc : Acc tru.Number) : Particle :=
  accCommitment hemera ⟨acc.sumM, acc.k, acc.seen, acc.commitment⟩

theorem absorbTicket_number (acc : ClusterAcc) (ticket : SettlementTicket) :
    absorbTicket (commitNumber tru hemera) (ofAcc tru acc) (ofTicket tru ticket) =
      ofAcc tru (Settlement.absorbTicket hemera acc ticket) := by
  by_cases known : acc.seen.contains (ticket.miner, ticket.nonce) = true
  · rw [Settlement.absorbTicket, if_pos known]
    exact if_pos known
  rw [Settlement.absorbTicket, if_neg known]
  refine (if_neg known).trans ?_
  by_cases dropped : acc.sumM.length ≠ ticket.marginals.length ∧ acc.k ≠ 0
  · rw [if_pos dropped]
    exact if_pos dropped
  · rw [if_neg dropped]
    exact if_neg dropped

theorem selfFold_number (nContrib : Nat) (tickets : List SettlementTicket) :
    selfFold (commitNumber tru hemera) nContrib (tickets.map (ofTicket tru)) =
      ofAcc tru (Settlement.selfFold hemera nContrib tickets) := by
  induction tickets using List.reverseRecOn with
  | nil => rfl
  | append_singleton tickets ticket ih =>
      rw [selfFold_append_singleton, ← absorbTicket_number, ← ih, selfFold, List.map_append,
        List.foldl_append]
      rfl

theorem meanShares_number (acc : ClusterAcc) (neurons : List Particle) :
    (ofAcc tru acc).meanShares neurons = acc.meanShares tru neurons := rfl

end FixedPoint

section Rationals

variable {commit : Acc ℚ → Particle} {n : Nat} {tickets : List (Ticket ℚ)}

/-- What an accumulator of tickets with different pairs holds. -/
structure Sums (n : Nat) (tickets : List (Ticket ℚ)) (acc : Acc ℚ) : Prop where
  seen : ∀ sample, sample ∈ acc.seen ↔ sample ∈ tickets.map Ticket.key
  counted : acc.k = lenU64 tickets.length
  dimension : acc.sumM.length = n
  summed : ∀ i, acc.sumM.getD i 0 = (tickets.map fun ticket => ticket.marginals.getD i 0).sum

theorem empty_sums (n : Nat) : Sums n [] (Acc.empty n) where
  seen sample := iff_of_false Std.ExtTreeSet.not_mem_empty List.not_mem_nil
  counted := rfl
  dimension := List.length_replicate
  summed i := by
    rw [Acc.empty, List.getD_eq_getElem?_getD, List.getElem?_replicate]
    split_ifs <;> rfl

theorem Sums.absorb {acc : Acc ℚ} (sums : Sums n tickets acc) {ticket : Ticket ℚ}
    (dimension : ticket.marginals.length = n) (new : ticket.key ∉ tickets.map Ticket.key) :
    Sums n (tickets ++ [ticket]) (absorbTicket commit acc ticket) := by
  have lengths : acc.sumM.length = ticket.marginals.length := sums.dimension.trans dimension.symm
  have unknown : ¬ acc.seen.contains (ticket.miner, ticket.nonce) = true :=
    mt (sums.seen ticket.key).mp new
  rw [absorbTicket, if_neg unknown, if_neg fun mismatch => mismatch.1 lengths,
    if_neg (not_not.mpr lengths)]
  refine ⟨?_, ?_, ?_, ?_⟩
  · intro sample
    change sample ∈ acc.seen.insert ticket.key ↔ _
    rw [Std.ExtTreeSet.mem_insert, Std.LawfulEqCmp.compare_eq_iff_eq, sums.seen, List.map_append,
      List.mem_append, List.map_singleton, List.mem_singleton, or_comm, eq_comm]
  · change satAdd acc.k 1 = lenU64 (tickets ++ [ticket]).length
    rw [sums.counted, ← lenU64_one, satAdd_lenU64, List.length_append, List.length_singleton]
  · change (List.zipWith (· + ·) acc.sumM ticket.marginals).length = n
    rw [List.length_zipWith, lengths, Nat.min_self, dimension]
  · intro i
    change (List.zipWith (· + ·) acc.sumM ticket.marginals).getD i 0 = _
    rw [getD_zipWith_add lengths, sums.summed, List.map_append, List.sum_append,
      List.map_singleton, List.sum_singleton]

theorem selfFold_sums (dimension : ∀ ticket ∈ tickets, ticket.marginals.length = n)
    (distinct : (tickets.map Ticket.key).Nodup) : Sums n tickets (selfFold commit n tickets) := by
  induction tickets using List.reverseRecOn with
  | nil => exact empty_sums n
  | append_singleton tickets ticket ih =>
      rw [List.map_append, List.nodup_append] at distinct
      have new : ticket.key ∉ tickets.map Ticket.key := by
        intro known
        exact distinct.2.2 _ known ticket.key (List.mem_singleton_self _) rfl
      rw [selfFold, List.foldl_append]
      exact (ih (fun other member => dimension other (List.mem_append_left _ member))
        distinct.1).absorb (dimension ticket (List.mem_append_right _ (.head _))) new

/-- The mean share of the contributor at a position. -/
def share (commit : Acc ℚ → Particle) (neurons : List Particle) (tickets : List (Ticket ℚ))
    (i : Nat) : ℚ :=
  (((selfFold commit neurons.length tickets).meanShares neurons).map Prod.snd).getD i 0

/-- The mean share is the average of the marginals. -/
theorem share_eq_average {neurons : List Particle} (nonempty : tickets ≠ [])
    (slice : tickets.length < 2 ^ 63)
    (dimension : ∀ ticket ∈ tickets, ticket.marginals.length = neurons.length)
    (distinct : (tickets.map Ticket.key).Nodup) (i : Nat) :
    share commit neurons tickets i =
      average (tickets.map fun ticket => ticket.marginals.getD i 0) := by
  have sums : Sums neurons.length tickets (selfFold commit neurons.length tickets) :=
    selfFold_sums dimension distinct
  have positive : 0 < tickets.length := List.length_pos_iff.mpr nonempty
  have busy : (selfFold commit neurons.length tickets).k ≠ 0 := by
    rw [sums.counted, Ne, lenU64_eq_zero_iff]
    omega
  have count : ((selfFold commit neurons.length tickets).k.toInt64.toInt : ℚ) = tickets.length := by
    rw [sums.counted, lenU64_toInt slice, Int.cast_natCast]
  rw [share, Acc.meanShares, if_neg (by simp [busy, sums.dimension]), List.map_map, count]
  change (((neurons.zip _).map ((· * (1 / (tickets.length : ℚ))) ∘ Prod.snd))).getD i 0 = _
  rw [← List.map_map, List.map_snd_zip sums.dimension.le,
    ← zero_mul (1 / (tickets.length : ℚ)), List.getD_map, sums.summed, average, List.length_map,
    mul_one_div]
  simp only [zero_mul]

end Rationals

/-- Whatever tickets are withheld, as long as they are a fraction of at most `q`, the
mean share of a contributor rises by at most the bound.  A slice of tickets is shorter than
`2 ^ 63`. -/
theorem withholding_gains_at_most_bound (commit : Acc ℚ → Particle) (neurons : List Particle)
    (tickets : List (Ticket ℚ)) (nonempty : tickets ≠ []) (slice : tickets.length < 2 ^ 63)
    (dimension : ∀ ticket ∈ tickets, ticket.marginals.length = neurons.length)
    (distinct : (tickets.map Ticket.key).Nodup) (withheld : Ticket ℚ → Bool) (q least : ℚ)
    (below : q < 1) (few : ((tickets.filter withheld).length : ℚ) ≤ q * tickets.length)
    (i : Fin neurons.length)
    (smallest : IsLeast {m | ∃ ticket ∈ tickets, ticket.marginals[i.val]? = some m} least) :
    share commit neurons (tickets.filter fun ticket => !withheld ticket) i -
        share commit neurons tickets i ≤
      withholdingBiasBound (share commit neurons tickets i - least) q := by
  let marginal (ticket : Ticket ℚ) : ℚ := ticket.marginals.getD i 0
  let kept := tickets.filter fun ticket => !withheld ticket
  let taken := tickets.filter withheld
  have bounded : ∀ value ∈ tickets.map marginal, least ≤ value := by
    intro value member
    obtain ⟨ticket, among, rfl⟩ := List.mem_map.mp member
    have inside : i.val < ticket.marginals.length := by
      rw [dimension ticket among]
      exact i.isLt
    refine smallest.2 ⟨ticket, among, ?_⟩
    simp only [marginal, List.getD_eq_getElem?_getD, List.getElem?_eq_getElem inside,
      Option.getD_some]
  have keptTickets : ∀ ticket ∈ kept, ticket ∈ tickets := fun _ => List.mem_of_mem_filter
  have split : tickets.Perm (kept ++ taken) :=
    (List.filter_append_perm withheld tickets).symm.trans List.perm_append_comm
  have lengths : (tickets.length : ℚ) = kept.length + taken.length := by
    rw [split.length_eq, List.length_append, Nat.cast_add]
  have room : (0 : ℚ) < kept.length := by
    have total : (0 : ℚ) < tickets.length := length_cast_pos nonempty
    have fewer : q * tickets.length < tickets.length := mul_lt_of_lt_one_left total below
    change (taken.length : ℚ) ≤ _ at few
    linarith
  have published : kept ≠ [] := List.length_pos_iff.mp (Nat.cast_pos.mp room)
  have shorter : kept.length < 2 ^ 63 := Nat.lt_of_le_of_lt (List.length_filter_le _ _) slice
  have keptDistinct : (kept.map Ticket.key).Nodup := distinct.sublist (List.filter_sublist.map _)
  rw [share_eq_average nonempty slice dimension distinct,
    share_eq_average published shorter (fun ticket among => dimension ticket (keptTickets ticket among))
      keptDistinct, withholdingBiasBound]
  have splitMarginals : (tickets.map marginal).Perm (kept.map marginal ++ taken.map marginal) := by
    rw [← List.map_append]
    exact split.map marginal
  have gain := average_left_le (List.map_eq_nil_iff.not.mpr published) splitMarginals
    fun value member => bounded value ((List.filter_sublist.map marginal).subset member)
  rw [List.length_map, List.length_map] at gain
  have range : 0 ≤ average (tickets.map marginal) - least :=
    sub_nonneg.mpr (le_average (List.map_eq_nil_iff.not.mpr nonempty) bounded)
  rw [lengths] at few
  exact gain.trans (mul_le_mul_of_nonneg_left (ratio_le room below few) range)

def oneMarginal (nonce : UInt64) (marginal : ℚ) : Ticket ℚ :=
  ⟨Particle.zero, nonce, [marginal], Particle.zero, 0⟩

/-- Of three tickets the one with the least marginal is withheld, and the bound is met. -/
theorem withholding_gains_at_most_bound_one_of_three :
    let tickets := [oneMarginal 0 1, oneMarginal 1 2, oneMarginal 2 6]
    let commit := fun _ : Acc ℚ => Particle.zero
    let published := tickets.filter fun ticket => !decide (ticket.nonce = 0)
    share commit [Particle.zero] published 0 - share commit [Particle.zero] tickets 0 ≤
      withholdingBiasBound (share commit [Particle.zero] tickets 0 - 1) (1 / 3) := by
  intro tickets commit published
  refine withholding_gains_at_most_bound commit [Particle.zero] tickets (by simp [tickets])
    (by decide) (by simp [tickets, oneMarginal]) (by decide +kernel)
    (fun ticket => decide (ticket.nonce = 0)) (1 / 3) 1 (by decide +kernel) (by decide +kernel) 0 ?_
  refine ⟨⟨_, .head _, rfl⟩, ?_⟩
  rintro m ⟨ticket, member, found⟩
  simp only [tickets, List.mem_cons, List.not_mem_nil, or_false] at member
  rcases member with rfl | rfl | rfl
  · cases found
    decide
  · cases found
    decide
  · cases found
    decide

/-- The first ticket has a marginal too many: it sets the dimension, the other one is
dropped, and no share is paid until the first one is withheld. -/
theorem mixed_dimensions_exceed_bound :
    let tickets : List (Ticket ℚ) := [⟨Particle.zero, 0, [0, 0, 0], Particle.zero, 0⟩,
      ⟨Particle.zero, 1, [100, 100], Particle.zero, 0⟩]
    let commit := fun _ : Acc ℚ => Particle.zero
    let neurons := [Particle.zero, Particle.padded [1]]
    let withheld (ticket : Ticket ℚ) := decide (ticket.nonce = 0)
    (tickets.map Ticket.key).Nodup ∧
      ((tickets.filter withheld).length : ℚ) ≤ 1 / 2 * tickets.length ∧
      IsLeast {m | ∃ ticket ∈ tickets, ticket.marginals[0]? = some m} 0 ∧
      share commit neurons (tickets.filter fun ticket => !withheld ticket) 0 -
        share commit neurons tickets 0 = 100 ∧
      withholdingBiasBound (share commit neurons tickets 0 - 0) (1 / 2) = 0 := by
  intro tickets commit neurons withheld
  have least : IsLeast {m | ∃ ticket ∈ tickets, ticket.marginals[0]? = some m} 0 := by
    refine ⟨⟨_, .head _, rfl⟩, ?_⟩
    rintro m ⟨ticket, member, found⟩
    simp only [tickets, List.mem_cons, List.not_mem_nil, or_false] at member
    rcases member with rfl | rfl
    · cases found
      exact le_rfl
    · cases found
      decide
  have facts : (tickets.map Ticket.key).Nodup ∧
      ((tickets.filter withheld).length : ℚ) ≤ 1 / 2 * tickets.length ∧
      share commit neurons (tickets.filter fun ticket => !withheld ticket) 0 -
        share commit neurons tickets 0 = 100 ∧
      withholdingBiasBound (share commit neurons tickets 0 - 0) (1 / 2) = 0 := by
    decide +kernel
  exact ⟨facts.1, facts.2.1, least, facts.2.2⟩

end Foculus.Settlement.Exact

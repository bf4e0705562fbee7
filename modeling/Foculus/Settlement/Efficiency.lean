import Foculus.Settlement.FoldTree
import Foculus.Settlement.Shapley

namespace Foculus.Settlement

open Data ClusterAcc

/-! # What honest tickets add up to

The marginals of one ordering telescope to the value of all contributors, whatever
the nonce, and an accumulator adds one such vector for each sample that it counts. -/

section Telescope

variable {tru : Tru} {base : List Link} {contribs : List Contribution} {ctx : tru.Context}
  {params : tru.FocusingParams}

/-- The loop adds what the value has gained since `prev`. -/
theorem marginalsFrom_sum {order : List (Fin contribs.length)} {visited : List Contribution}
    {prev : Fx} {out : List Fx} (some : order ≠ []) (distinct : order.Nodup)
    (width : out.length = contribs.length) (unset : ∀ i ∈ order, out[i.val]? = Option.some 0) :
    (marginalsFrom tru base ctx params contribs order visited prev out).sum =
      out.sum + (value tru base ctx params (visited ++ order.map contribs.get) - prev) := by
  induction order generalizing visited prev out with
  | nil => contradiction
  | cons i rest ih =>
      obtain ⟨once, distinct⟩ := List.nodup_cons.mp distinct
      have inside : i.val < out.length := by
        rw [width]
        exact i.isLt
      have written (v : Fx) : (out.set i v).sum = out.sum + v := by
        have zero : out[i.val] = 0 := by
          have here := unset i List.mem_cons_self
          rw [List.getElem?_eq_getElem inside] at here
          exact Option.some.inj here
        rw [List.sum_set', dif_pos inside, zero, neg_zero, zero_add]
      rw [marginalsFrom]
      by_cases more : rest = []
      · subst more
        exact written _
      · have later : ∀ j ∈ rest, (out.set i
            (value tru base ctx params (visited ++ [contribs.get i]) - prev))[j.val]? =
              Option.some 0 := by
          intro j member
          have apart : i.val ≠ j.val := fun same => once (Fin.ext same ▸ member)
          rw [List.getElem?_set_ne apart]
          exact unset j (List.mem_cons_of_mem _ member)
        rw [ih more distinct (by rw [List.length_set, width]) later, written, List.append_assoc,
          List.map_cons, List.singleton_append]
        abel

/-- Along every ordering the marginals add up to the value of all contributors. -/
theorem marginals_sum (batched : OrderFree tru base ctx params) (inhabited : contribs.length ≠ 0)
    {order : List (Fin contribs.length)} (everyone : order.Perm (List.finRange contribs.length)) :
    (marginals tru base ctx params contribs order).sum = value tru base ctx params contribs := by
  have visits : (order.map contribs.get).Perm contribs := by
    have listed := everyone.map contribs.get
    rwa [List.map_get_finRange] at listed
  have nonempty : order ≠ [] := by
    rintro rfl
    exact inhabited (List.length_finRange.symm.trans everyone.length_eq.symm)
  rw [marginals, marginalsFrom_sum nonempty (everyone.nodup_iff.mpr (List.nodup_finRange _))
    List.length_replicate, List.sum_replicate, smul_zero, zero_add, sub_zero, List.nil_append,
    value_perm batched visits]
  intro i _
  rw [List.getElem?_replicate, if_pos i.isLt]

end Telescope

/-- So many samples, each of which divides the value. -/
structure Divides (n : Nat) (whole : Fx) (acc : ClusterAcc) (samples : Nat) : Prop where
  dimension : acc.sumM.length = n
  counted : acc.k = lenU64 samples
  summed : acc.sumM.sum = samples • whole

theorem empty_divides (n : Nat) (whole : Fx) : Divides n whole (ClusterAcc.empty n) 0 where
  dimension := List.length_replicate
  counted := rfl
  summed := by
    rw [ClusterAcc.empty, List.sum_replicate, smul_zero, zero_smul]

section Absorb

variable {hemera : Hemera} {n samples : Nat} {whole : Fx} {acc : ClusterAcc}

theorem sum_raw (values : List Fx) : (values.map Fx.raw).sum = values.sum.raw := by
  induction values with
  | nil => rfl
  | cons value rest ih =>
      rw [List.map_cons, List.sum_cons, ih, List.sum_cons]
      rfl

theorem smul_raw (count : Nat) (value : Fx) : (count • value).raw = count • value.raw := rfl

theorem sum_zipWith_add {left right : List Fx} (lengths : left.length = right.length) :
    (List.zipWith (· + ·) left right).sum = left.sum + right.sum := by
  induction left generalizing right with
  | nil =>
      rw [List.eq_nil_of_length_eq_zero lengths.symm]
      rfl
  | cons first rest ih =>
      cases right with
      | nil => cases lengths
      | cons other others =>
          rw [List.zipWith_cons_cons, List.sum_cons, List.sum_cons, List.sum_cons,
            ih (Nat.succ.inj lengths)]
          abel

/-- A ticket is one more sample, or its pair is known. -/
theorem Divides.absorb (hemera : Hemera) (divides : Divides n whole acc samples) {ticket : SettlementTicket}
    (dimension : ticket.marginals.length = n) (summed : ticket.marginals.sum = whole) :
    Divides n whole (absorbTicket hemera acc ticket) samples ∨
      Divides n whole (absorbTicket hemera acc ticket) (samples + 1) := by
  by_cases known : acc.seen.contains (ticket.miner, ticket.nonce) = true
  · left
    rwa [absorbTicket, if_pos known]
  · right
    have lengths : acc.sumM.length = ticket.marginals.length :=
      divides.dimension.trans dimension.symm
    rw [absorbTicket_fresh hemera lengths known]
    refine ⟨?_, ?_, ?_⟩
    · change (List.zipWith (· + ·) acc.sumM ticket.marginals).length = n
      rw [List.length_zipWith, lengths, Nat.min_self, dimension]
    · change satAdd acc.k 1 = lenU64 (samples + 1)
      rw [divides.counted, ← lenU64_one, satAdd_lenU64]
    · change (List.zipWith (· + ·) acc.sumM ticket.marginals).sum = (samples + 1) • whole
      rw [sum_zipWith_add lengths, divides.summed, summed, succ_nsmul]

theorem selfFold_divides (hemera : Hemera) {tickets : List SettlementTicket}
    (honest : ∀ ticket ∈ tickets, ticket.marginals.length = n ∧ ticket.marginals.sum = whole) :
    ∃ samples ≤ tickets.length, Divides n whole (selfFold hemera n tickets) samples := by
  induction tickets using List.reverseRecOn with
  | nil => exact ⟨0, Nat.le_refl 0, empty_divides n whole⟩
  | append_singleton tickets ticket ih =>
      obtain ⟨samples, bound, divides⟩ :=
        ih fun other member => honest other (List.mem_append_left _ member)
      obtain ⟨dimension, summed⟩ := honest ticket (List.mem_append_right _ (.head _))
      rw [selfFold_append_singleton, List.length_append, List.length_singleton]
      rcases divides.absorb hemera dimension summed with known | fresh
      · exact ⟨samples, Nat.le_succ_of_le bound, known⟩
      · exact ⟨samples + 1, Nat.succ_le_succ bound, fresh⟩

end Absorb

/-- The sums of an honest accumulator divide as many times the value of all contributors
as it counts samples.  A slice of tickets is shorter than `2 ^ 64`. -/
theorem honest_sums_divide_value (hemera : Hemera) (tru : Tru) (base : List Link)
    (contribs : List Contribution) (ctx : tru.Context) (params : tru.FocusingParams)
    (beacon cluster : Particle) (target : UInt64) (batched : OrderFree tru base ctx params)
    (tickets : List SettlementTicket) (slice : tickets.length < 2 ^ 64)
    (won : ∀ ticket ∈ tickets, ∃ miner nonce, trySettlementTicket hemera tru base contribs ctx
      params beacon cluster miner nonce target = some ticket) :
    let acc := selfFold hemera contribs.length tickets
    acc.sumM.sum = acc.k.toNat • value tru base ctx params contribs ∧
      ((acc.k.toNat : Goldilocks) ≠ 0 →
        (acc.sumM.map fun sum => sum.raw / (acc.k.toNat : Goldilocks)).sum =
          (value tru base ctx params contribs).raw) := by
  intro acc
  have honest : ∀ ticket ∈ tickets, ticket.marginals.length = contribs.length ∧
      ticket.marginals.sum = value tru base ctx params contribs := by
    intro ticket member
    obtain ⟨miner, nonce, wins⟩ := won ticket member
    obtain ⟨inhabited, _, _, published, _⟩ := trySettlementTicket_eq_some_iff.mp wins
    rw [published]
    exact ⟨marginals_length _, marginals_sum batched inhabited (ordering_perm hemera _ _ _)⟩
  obtain ⟨samples, bound, divides⟩ := selfFold_divides hemera honest
  have summed : acc.sumM.sum = acc.k.toNat • value tru base ctx params contribs := by
    have counted : acc.k.toNat = samples := by
      rw [divides.counted, lenU64_toNat]
      omega
    rw [counted]
    exact divides.summed
  refine ⟨summed, fun countable => ?_⟩
  have raw : acc.sumM.sum.raw = acc.k.toNat * (value tru base ctx params contribs).raw := by
    rw [summed, smul_raw, nsmul_eq_mul]
  simp only [div_eq_mul_inv]
  rw [List.sum_map_mul_right, sum_raw, raw, mul_comm, inv_mul_cancel_left₀ countable]

/-- Two miners, one of whom sends a ticket twice. -/
theorem honest_sums_divide_value_two_miners :
    ∃ first second, trySettlementTicket .truncating .unit [] [original, copier] () ()
        Particle.zero Particle.zero (Particle.padded [1]) 0 (2 ^ 64 - 1) = some first ∧
      trySettlementTicket .truncating .unit [] [original, copier] () ()
        Particle.zero Particle.zero (Particle.padded [2]) 0 (2 ^ 64 - 1) = some second ∧
      (selfFold .truncating 2 [first, second, first]).sumM.sum =
        (selfFold .truncating 2 [first, second, first]).k.toNat •
          value Tru.unit [] () () [original, copier] := by
  have firstWins : (trySettlementTicket .truncating .unit [] [original, copier] () ()
      Particle.zero Particle.zero (Particle.padded [1]) 0 (2 ^ 64 - 1)).isSome = true := by
    decide +kernel
  have secondWins : (trySettlementTicket .truncating .unit [] [original, copier] () ()
      Particle.zero Particle.zero (Particle.padded [2]) 0 (2 ^ 64 - 1)).isSome = true := by
    decide +kernel
  obtain ⟨first, firstWon⟩ := Option.isSome_iff_exists.mp firstWins
  obtain ⟨second, secondWon⟩ := Option.isSome_iff_exists.mp secondWins
  refine ⟨first, second, firstWon, secondWon, ?_⟩
  refine (honest_sums_divide_value .truncating .unit [] [original, copier] () () Particle.zero
    Particle.zero (2 ^ 64 - 1) unit_orderFree [first, second, first] (by simp) ?_).1
  intro ticket member
  simp only [List.mem_cons, List.not_mem_nil, or_false] at member
  rcases member with rfl | rfl | rfl
  · exact ⟨_, _, firstWon⟩
  · exact ⟨_, _, secondWon⟩
  · exact ⟨_, _, firstWon⟩

end Foculus.Settlement

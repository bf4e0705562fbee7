import Foculus.Data.Outcome
import Foculus.Settlement.TicketProof

namespace Foculus.Settlement

open Data

/-! # Sealing replayed tickets (`src/marginal_cert.rs`) -/

inductive CertError where
  | replayFailed
  | proof (reason : ProofError)
deriving DecidableEq, Repr

section Replay

variable (hemera : Hemera) (tru : Tru) (base : List Link) (contribs : List Contribution)
  (ctx : tru.Context) (params : tru.FocusingParams) (beacon : Particle)

def replayMarginals (ticket : SettlementTicket) : Option (List Fx) :=
  let n := contribs.length
  if n = 0 ∨ ticket.marginals.length ≠ n then none
  else
    let order := ordering hemera n beacon ticket.nonce
    let m := marginals tru base ctx params contribs order
    if commitMarginals hemera m ≠ ticket.commitment then none
    else if (m.zip ticket.marginals).any fun (a, b) => a.raw.asU64 ≠ b.raw.asU64 then none
    else some m

def proveReplayedBatch (zheng : Zheng) (cluster : Particle) (tickets : List SettlementTicket) :
    Except CertError (FoldSeal zheng) :=
  if tickets.any fun ticket =>
      (replayMarginals hemera tru base contribs ctx params beacon ticket).isNone then
    .error .replayFailed
  else (proveSettlementBatch hemera zheng beacon cluster tickets).mapError .proof

end Replay

section Grinding

variable {hemera : Hemera} {tru : Tru} {base : List Link} {contribs : List Contribution}
  {ctx : tru.Context} {params : tru.FocusingParams} {beacon cluster miner : Particle}

theorem marginalsFrom_length (order : List (Fin contribs.length)) (visited : List Contribution)
    (prev : Fx) (out : List Fx) :
    (marginalsFrom tru base ctx params contribs order visited prev out).length = out.length := by
  induction order generalizing visited prev out with
  | nil => rfl
  | cons i rest ih =>
      rw [marginalsFrom, ih, List.length_set]

@[simp] theorem marginals_length (order : List (Fin contribs.length)) :
    (marginals tru base ctx params contribs order).length = contribs.length := by
  rw [marginals, marginalsFrom_length, List.length_replicate]

theorem eq_of_zip_asU64 {left right : List Fx} (lengths : left.length = right.length)
    (same : ¬ (left.zip right).any (fun (a, b) => a.raw.asU64 ≠ b.raw.asU64) = true) :
    left = right := by
  apply List.ext_getElem lengths
  intro i leftBound rightBound
  by_contra differs
  apply same
  have bound : i < (left.zip right).length := by
    rw [List.length_zip]
    omega
  refine List.any_eq_true.mpr ⟨(left.zip right)[i], List.getElem_mem bound, ?_⟩
  rw [List.getElem_zip]
  simp only [ne_eq, decide_not, Bool.not_eq_eq_eq_not, Bool.not_true, decide_eq_false_iff_not]
  exact fun raws => differs (Fx.raw_injective (ZMod.val_injective P raws))

/-- A ticket replays exactly when its marginals and its commitment are those of
its nonce. -/
theorem replayMarginals_eq_some_iff {ticket : SettlementTicket} {replayed : List Fx} :
    replayMarginals hemera tru base contribs ctx params beacon ticket = some replayed ↔
      contribs.length ≠ 0 ∧
      ticket.marginals = marginals tru base ctx params contribs
        (ordering hemera contribs.length beacon ticket.nonce) ∧
      ticket.commitment = commitMarginals hemera ticket.marginals ∧
      replayed = ticket.marginals := by
  simp only [replayMarginals]
  constructor
  · intro accepted
    split_ifs at accepted with shape commitment values
    rw [not_or, not_not] at shape
    cases accepted
    have same := eq_of_zip_asU64 (by rw [marginals_length, shape.2]) values
    rw [← same]
    exact ⟨shape.1, rfl, (not_not.mp commitment).symm, rfl⟩
  · intro replays
    obtain ⟨inhabited, published, commitment, rfl⟩ := replays
    rw [if_neg (by simp [inhabited, published]), ← published, if_neg (by simp [commitment]), if_neg]
    rw [List.any_eq_true]
    intro mismatch
    obtain ⟨⟨a, b⟩, member, differs⟩ := mismatch
    have same : a = b := by
      obtain ⟨i, bound, entry⟩ := List.getElem_of_mem member
      rw [List.getElem_zip, Prod.mk.injEq] at entry
      exact entry.1.symm.trans entry.2
    simp [same] at differs

theorem trySettlementTicket_eq_some_iff {nonce target : UInt64} {ticket : SettlementTicket} :
    trySettlementTicket hemera tru base contribs ctx params beacon cluster miner nonce target =
        some ticket ↔
      contribs.length ≠ 0 ∧ ticket.miner = miner ∧ ticket.nonce = nonce ∧
      ticket.marginals = marginals tru base ctx params contribs
        (ordering hemera contribs.length beacon nonce) ∧
      ticket.commitment = commitMarginals hemera ticket.marginals ∧
      ticket.score = settleScore hemera beacon cluster nonce miner ticket.commitment ∧
      ticket.score < target := by
  simp only [trySettlementTicket]
  constructor
  · intro wins
    split_ifs at wins with nobody lost
    cases wins
    exact ⟨nobody, rfl, rfl, rfl, rfl, rfl, UInt64.not_le.mp lost⟩
  · intro won
    obtain ⟨inhabited, rfl, rfl, published, commitment, score, wins⟩ := won
    rw [if_neg inhabited, ← published, ← commitment, ← score, if_neg (UInt64.not_le.mpr wins)]

theorem trySettlementTicket_replays {nonce target : UInt64} {ticket : SettlementTicket}
    (wins : trySettlementTicket hemera tru base contribs ctx params beacon cluster miner nonce
      target = some ticket) :
    replayMarginals hemera tru base contribs ctx params beacon ticket = some ticket.marginals := by
  obtain ⟨inhabited, -, nonces, published, commitment, -⟩ :=
    trySettlementTicket_eq_some_iff.mp wins
  rw [← nonces] at published
  exact replayMarginals_eq_some_iff.mpr ⟨inhabited, published, commitment, rfl⟩

/-- The loop collects the winners of its attempts until there are enough. -/
theorem grindFrom_eq {startNonce target : UInt64} {want : Nat} (attempts i : Nat)
    (out : List SettlementTicket) :
    grindFrom hemera tru base contribs ctx params beacon cluster miner startNonce want target
        attempts i out =
      out ++ ((List.range' i attempts).filterMap fun i =>
        trySettlementTicket hemera tru base contribs ctx params beacon cluster miner
          (satAdd startNonce (lenU64 i)) target).take (want - out.length) := by
  induction attempts generalizing i out with
  | zero => simp [grindFrom]
  | succ attempts ih =>
      rw [grindFrom, List.range'_succ, List.filterMap_cons]
      split_ifs with enough
      · rw [Nat.sub_eq_zero_of_le enough, List.take_zero, List.append_nil]
      · have room : want - out.length = want - (out.length + 1) + 1 := by omega
        cases tried : trySettlementTicket hemera tru base contribs ctx params beacon cluster miner
            (satAdd startNonce (lenU64 i)) target with
        | none => exact ih (i + 1) out
        | some ticket =>
            dsimp only
            rw [ih, List.length_append, List.length_singleton, room, List.take_succ_cons,
              List.append_assoc, List.singleton_append]

/-- The winners among the attempts, as many as are wanted. -/
theorem grindSettlement_attempts {startNonce maxAttempts target : UInt64} {want : Nat} :
    grindSettlement hemera tru base contribs ctx params beacon cluster miner startNonce maxAttempts
        want target =
      ((List.range maxAttempts.toNat).filterMap fun i =>
        trySettlementTicket hemera tru base contribs ctx params beacon cluster miner
          (satAdd startNonce (lenU64 i)) target).take want := by
  rw [grindSettlement, grindFrom_eq, List.nil_append, List.length_nil, Nat.sub_zero,
    List.range_eq_range']

theorem grindSettlement_sound {startNonce maxAttempts target : UInt64} {want : Nat} :
    ∀ ticket ∈ grindSettlement hemera tru base contribs ctx params beacon cluster miner startNonce
        maxAttempts want target,
      ∃ nonce, trySettlementTicket hemera tru base contribs ctx params beacon cluster miner nonce
        target = some ticket := by
  intro ticket member
  rw [grindSettlement_attempts] at member
  obtain ⟨i, _, wins⟩ := List.mem_filterMap.mp (List.mem_of_mem_take member)
  exact ⟨_, wins⟩

theorem grindSettlement_length_lt {startNonce maxAttempts target : UInt64} {want : Nat} :
    (grindSettlement hemera tru base contribs ctx params beacon cluster miner startNonce maxAttempts
      want target).length < 2 ^ 64 := by
  rw [grindSettlement_attempts]
  calc _ ≤ _ := List.length_take_le' ..
    _ ≤ (List.range maxAttempts.toNat).length := List.length_filterMap_le ..
    _ = maxAttempts.toNat := List.length_range
    _ < 2 ^ 64 := maxAttempts.toNat_lt

theorem grindSettlement_dimension {startNonce maxAttempts target : UInt64} {want : Nat} :
    ∀ ticket ∈ grindSettlement hemera tru base contribs ctx params beacon cluster miner startNonce
        maxAttempts want target, ticket.marginals.length = contribs.length := by
  intro ticket member
  obtain ⟨nonce, wins⟩ := grindSettlement_sound ticket member
  obtain ⟨_, _, _, published, _⟩ := trySettlementTicket_eq_some_iff.mp wins
  rw [published, marginals_length]

theorem grindSettlement_ne_nil_iff {startNonce maxAttempts target : UInt64} {want : Nat} :
    grindSettlement hemera tru base contribs ctx params beacon cluster miner startNonce maxAttempts
        want target ≠ [] ↔
      want ≠ 0 ∧ ∃ i < maxAttempts.toNat, (trySettlementTicket hemera tru base contribs ctx params
        beacon cluster miner (satAdd startNonce (lenU64 i)) target).isSome := by
  rw [grindSettlement_attempts, ne_eq, List.take_eq_nil_iff, not_or, List.filterMap_eq_nil_iff]
  simp only [List.mem_range, not_forall, exists_prop, Option.ne_none_iff_isSome, ne_eq]

end Grinding

section Completeness

variable {zheng : Zheng}

theorem foldTickets_ok (complete : Step.Complete zheng) (hemera : Hemera)
    (beacon cluster : Particle) (tickets : List SettlementTicket) {prover : TicketProver zheng}
    {steps : Nat} (ran : prover.Ran steps) :
    ∃ after, tickets.foldlM (fun prover ticket =>
        prover.foldSettlement hemera beacon cluster ticket) prover = .ok after ∧
      after.Ran (steps + tickets.length) := by
  induction tickets generalizing prover steps with
  | nil => exact ⟨prover, rfl, ran⟩
  | cons ticket rest ih =>
      obtain ⟨next, folds, nextRan⟩ := TicketProver.foldMaterial_ok complete hemera
        (beacon.toList ++ cluster.toList ++ u64Bytes ticket.nonce ++ ticket.miner.toList ++
          ticket.commitment.toList) ran
      obtain ⟨after, later, afterRan⟩ := ih nextRan
      refine ⟨after, ?_, ?_⟩
      · rw [List.foldlM_cons, TicketProver.foldSettlement, folds]
        exact later
      · rw [List.length_cons, Nat.add_comm rest.length, ← Nat.add_assoc]
        exact afterRan

theorem proveSettlementBatch_ok (complete : Step.Complete zheng) (hemera : Hemera)
    (beacon cluster : Particle) {tickets : List SettlementTicket} (nonempty : tickets ≠ []) :
    ∃ sealed, proveSettlementBatch hemera zheng beacon cluster tickets = .ok sealed ∧
      verifyFoldSeal zheng sealed = true := by
  obtain ⟨ticket, rest, rfl⟩ := List.exists_cons_of_ne_nil nonempty
  obtain ⟨prover, folds, ran⟩ := foldTickets_ok complete hemera beacon cluster (ticket :: rest)
    TicketProver.new_ran
  rw [List.length_cons, Nat.zero_add] at ran
  obtain ⟨sealed, seals, verifies⟩ := TicketProver.seal_ok complete hemera beacon cluster
    (lenU64 (ticket :: rest).length) ran
  refine ⟨sealed, ?_, verifies⟩
  rw [proveSettlementBatch, if_neg (by simp), folds]
  exact seals

/-- Tickets that were won replay, so their batch is sealed. -/
theorem proveReplayedBatch_ok (complete : Step.Complete zheng) {hemera : Hemera} {tru : Tru}
    {base : List Link} {contribs : List Contribution} {ctx : tru.Context}
    {params : tru.FocusingParams} {beacon cluster miner : Particle} {target : UInt64}
    {tickets : List SettlementTicket} (nonempty : tickets ≠ [])
    (won : ∀ ticket ∈ tickets, ∃ nonce, trySettlementTicket hemera tru base contribs ctx params
      beacon cluster miner nonce target = some ticket) :
    ∃ sealed, proveReplayedBatch hemera tru base contribs ctx params beacon zheng cluster tickets =
        .ok sealed ∧
      verifyFoldSeal zheng sealed = true := by
  obtain ⟨sealed, proves, verifies⟩ :=
    proveSettlementBatch_ok complete hemera beacon cluster nonempty
  refine ⟨sealed, ?_, verifies⟩
  rw [proveReplayedBatch, if_neg, proves]
  · rfl
  · rw [List.any_eq_true]
    intro refused
    obtain ⟨ticket, member, fails⟩ := refused
    obtain ⟨nonce, wins⟩ := won ticket member
    rw [trySettlementTicket_replays wins] at fails
    cases fails

end Completeness

end Foculus.Settlement

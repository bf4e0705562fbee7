import Foculus.Settlement.MarginalCert

namespace Foculus.Settlement

open Data

/-! # Certified tickets (`certify_ticket` and `verify_certified_ticket` of `src/marginal_cert.rs`) -/

structure CertifiedTicket (zheng : Zheng) where
  ticket : SettlementTicket
  sealed : FoldSeal zheng
  order : List Nat

section Certify

variable (hemera : Hemera) (tru : Tru) (zheng : Zheng) (base : List Link)
  (contribs : List Contribution) (ctx : tru.Context) (params : tru.FocusingParams)
  (beacon cluster : Particle)

/-- The ordering as the positions it lists. -/
def orderPositions (nonce : UInt64) : List Nat :=
  (ordering hemera contribs.length beacon nonce).map Fin.val

def certifyTicket (ticket : SettlementTicket) : Except CertError (CertifiedTicket zheng) :=
  let order := orderPositions hemera contribs beacon ticket.nonce
  match replayMarginals hemera tru base contribs ctx params beacon ticket with
  | none => .error .replayFailed
  | some _ => do
      let prover ←
        ((TicketProver.new zheng).foldSettlement hemera beacon cluster ticket).mapError .proof
      let sealed ← (prover.seal hemera beacon cluster 1).mapError .proof
      if !verifyFoldSeal zheng sealed then .error (.proof .verifyFailed)
      else return { ticket, sealed, order }

def verifyCertifiedTicket (target : UInt64) (cert : CertifiedTicket zheng) : Bool :=
  let score := settleScore hemera beacon cluster cert.ticket.nonce cert.ticket.miner
    cert.ticket.commitment
  if score ≠ cert.ticket.score ∨ score ≥ target then false
  else if (replayMarginals hemera tru base contribs ctx params beacon cert.ticket).isNone then false
  else if !verifyFoldSeal zheng cert.sealed then false
  else orderPositions hemera contribs beacon cert.ticket.nonce == cert.order

end Certify

variable {hemera : Hemera} {tru : Tru} {zheng : Zheng} {base : List Link}
  {contribs : List Contribution} {ctx : tru.Context} {params : tru.FocusingParams}
  {beacon cluster miner : Particle} {target : UInt64}

/-- A certificate that is accepted carries the ticket that its miner wins with
its nonce. -/
theorem verifyCertifiedTicket_sound {cert : CertifiedTicket zheng}
    (accepted : verifyCertifiedTicket hemera tru zheng base contribs ctx params beacon cluster
      target cert = true) :
    trySettlementTicket hemera tru base contribs ctx params beacon cluster cert.ticket.miner
        cert.ticket.nonce target = some cert.ticket ∧
      cert.order = orderPositions hemera contribs beacon cert.ticket.nonce := by
  simp only [verifyCertifiedTicket] at accepted
  split_ifs at accepted with lost unplayed unsealed
  rw [not_or, not_not, ge_iff_le, UInt64.not_le] at lost
  obtain ⟨scored, wins⟩ := lost
  obtain ⟨replayed, replays⟩ := Option.ne_none_iff_exists'.mp (by simpa using unplayed)
  obtain ⟨inhabited, published, commitment, -⟩ := replayMarginals_eq_some_iff.mp replays
  refine ⟨?_, (beq_iff_eq.mp accepted).symm⟩
  exact trySettlementTicket_eq_some_iff.mpr
    ⟨inhabited, rfl, rfl, published, commitment, scored.symm, scored ▸ wins⟩

section Won

variable {nonce : UInt64} {ticket : SettlementTicket}

theorem verifySettlementTicket_of_won
    (wins : trySettlementTicket hemera tru base contribs ctx params beacon cluster miner nonce
      target = some ticket) :
    verifySettlementTicket hemera ticket beacon cluster target = true := by
  obtain ⟨-, miners, nonces, -, commitment, score, below⟩ :=
    trySettlementTicket_eq_some_iff.mp wins
  rw [verifySettlementTicket, if_neg (not_not.mpr commitment.symm), miners, nonces, ← score]
  simpa using below

theorem certifyTicket_of_won (complete : Step.Complete zheng)
    (wins : trySettlementTicket hemera tru base contribs ctx params beacon cluster miner nonce
      target = some ticket) :
    ∃ cert, certifyTicket hemera tru zheng base contribs ctx params beacon cluster ticket =
        .ok cert ∧
      verifyCertifiedTicket hemera tru zheng base contribs ctx params beacon cluster target cert =
        true := by
  obtain ⟨-, miners, nonces, -, commitment, score, below⟩ :=
    trySettlementTicket_eq_some_iff.mp wins
  have replays := trySettlementTicket_replays wins
  obtain ⟨prover, folds, ran⟩ := TicketProver.foldMaterial_ok complete hemera
    (beacon.toList ++ cluster.toList ++ u64Bytes ticket.nonce ++ ticket.miner.toList ++
      ticket.commitment.toList) TicketProver.new_ran
  obtain ⟨sealed, seals, verifies⟩ := TicketProver.seal_ok complete hemera beacon cluster 1 ran
  refine ⟨⟨ticket, sealed, orderPositions hemera contribs beacon ticket.nonce⟩, ?_, ?_⟩
  · rw [certifyTicket, replays]
    simp only [TicketProver.foldSettlement, folds, Except.mapError, bind, Except.bind, seals,
      verifies]
    rfl
  · simp only [verifyCertifiedTicket, miners, nonces, ← score, replays, verifies]
    simp [below]

end Won

/-- An accepted certificate is that of the ticket its miner wins; and every
ticket that was ground verifies, replays and can be certified. -/
theorem certification_sound_and_complete (hemera : Hemera) (tru : Tru) (zheng : Zheng)
    (complete : Step.Complete zheng) (base : List Link) (contribs : List Contribution)
    (ctx : tru.Context) (params : tru.FocusingParams) (beacon cluster : Particle)
    (target : UInt64) :
    (∀ cert : CertifiedTicket zheng,
      verifyCertifiedTicket hemera tru zheng base contribs ctx params beacon cluster target cert =
        true →
      trySettlementTicket hemera tru base contribs ctx params beacon cluster cert.ticket.miner
          cert.ticket.nonce target = some cert.ticket ∧
        cert.order = (ordering hemera contribs.length beacon cert.ticket.nonce).map Fin.val) ∧
    ∀ (miner : Particle) (startNonce maxAttempts : UInt64) (want : Nat), ∀ ticket ∈
        grindSettlement hemera tru base contribs ctx params beacon cluster miner startNonce
          maxAttempts want target,
      verifySettlementTicket hemera ticket beacon cluster target = true ∧
      replayMarginals hemera tru base contribs ctx params beacon ticket = some ticket.marginals ∧
      ∃ cert, certifyTicket hemera tru zheng base contribs ctx params beacon cluster ticket =
          .ok cert ∧
        verifyCertifiedTicket hemera tru zheng base contribs ctx params beacon cluster target
          cert = true := by
  refine ⟨fun cert => verifyCertifiedTicket_sound, ?_⟩
  intro miner startNonce maxAttempts want ticket member
  obtain ⟨nonce, wins⟩ := grindSettlement_sound ticket member
  exact ⟨verifySettlementTicket_of_won wins, trySettlementTicket_replays wins,
    certifyTicket_of_won complete wins⟩

/-- One contributor, one attempt at nonce 3 under the always-win target. -/
theorem certification_sound_and_complete_one_ticket :
    let contribs : List Contribution :=
      [⟨Particle.padded [1], [Tru.unit.stake (Particle.padded [8]) (Particle.padded [9]) 100],
        Fx.one⟩]
    let tickets := grindSettlement .truncating .unit [] contribs () () Particle.zero Particle.zero
      (Particle.padded [7]) 3 1 1 (UInt64.ofNat (2 ^ 64 - 1))
    Step.Complete Step.counting ∧ tickets.map SettlementTicket.nonce = [3] ∧
      ∀ ticket ∈ tickets, ∃ cert,
        certifyTicket .truncating .unit Step.counting [] contribs () () Particle.zero Particle.zero
          ticket = .ok cert ∧
        verifyCertifiedTicket .truncating .unit Step.counting [] contribs () () Particle.zero
          Particle.zero (UInt64.ofNat (2 ^ 64 - 1)) cert = true := by
  intro contribs tickets
  refine ⟨Step.counting_complete, by decide +kernel, ?_⟩
  intro ticket member
  exact ((certification_sound_and_complete .truncating .unit Step.counting Step.counting_complete []
    contribs () () Particle.zero Particle.zero (UInt64.ofNat (2 ^ 64 - 1))).2 (Particle.padded [7])
    3 1 1 ticket member).2.2

end Foculus.Settlement

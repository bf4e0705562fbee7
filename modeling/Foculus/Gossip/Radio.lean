import Foculus.Gossip.Wire

namespace Foculus.Gossip

open Data Settlement

/-! # The radio transport (`src/radio_settle.rs`) -/

/-- The inbox, the seen set and the topics; the peer book is not modelled. -/
abbrev RadioState := PeerState

def ingest (hemera : Hemera) (state : RadioState) (msg : SettleMsg) : RadioState :=
  if state.accepts msg.topic then (state.deliver hemera msg).1 else state

section Inbound

/-- The loop of `handle_inbound` over the reads of a stream, for any `ingest`;
what is left in the buffer when the stream ends is returned too. -/
def handleInbound {σ : Type} (ingest : σ → SettleMsg → σ) (reads : List (List UInt8)) (state : σ) :
    σ × List UInt8 :=
  feedPieces splitFrame (fun state frame =>
    match decodeSettleMsg frame with
    | some msg => ingest state msg
    | none => state) reads state []

variable {σ : Type} (ingest : σ → SettleMsg → σ) {msgs : List SettleMsg}
  {reads : List (List UInt8)}

/-- However the stream of frames is cut into reads, the messages reach `ingest`
one after the other, and no byte is left over. -/
theorem handleInbound_encoded (state : σ) (shippable : ∀ msg ∈ msgs, Shippable msg)
    (fits : ∀ msg ∈ msgs, (encodeSettleMsg msg).length < 2 ^ 32)
    (nonempty : ∀ read ∈ reads, read ≠ [])
    (stream : reads.flatten = msgs.flatMap fun msg => encodeFrame (encodeSettleMsg msg)) :
    handleInbound ingest reads state = (msgs.foldl ingest state, []) := by
  have waiting : splitFrame [] = none := by decide
  have each (msg : SettleMsg) (member : msg ∈ msgs) (rest : List UInt8) :
      splitFrame (encodeFrame (encodeSettleMsg msg) ++ rest) = some (encodeSettleMsg msg, rest) :=
    splitFrame_encoded (fits msg member) rest
  rw [handleInbound, splitFrame_cuts.feedPieces_eq nonempty waiting (Nat.le_refl _),
    List.nil_append, stream, splitFrame_cuts.eachFrame_encoded msgs waiting each (Nat.le_refl _)]
  congr 1
  refine List.foldl_ext _ _ _ fun state msg member => ?_
  rw [decodeSettleMsg_encoded (shippable msg member)]

end Inbound

def sampleClaim : RewardClaim where
  id := Particle.padded [1]
  neuron := Particle.padded [2]
  links := [Tru.unit.stake (Particle.padded [3]) (Particle.padded [4]) 70000]
  belief := Fx.one
  prediction := 0

def sampleAcc : ClusterAcc where
  sumM := [Fx.one, -Fx.one]
  k := 2
  seen := insertSamples [(Particle.padded [6], 1), (Particle.padded [5], 9)]
  commitment := Particle.padded [7]

def sampleMsgs : List SettleMsg :=
  [.claimAnnounce (Particle.padded [9]) sampleClaim.id sampleClaim.neuron sampleClaim,
    .selfAcc (Particle.padded [9]) (Particle.padded [5]) sampleAcc,
    .receiptHash (Particle.padded [9]) (Particle.padded [8]) 3]

def sampleStream : List UInt8 := sampleMsgs.flatMap fun msg => encodeFrame (encodeSettleMsg msg)

/-- The first cut falls into the length prefix of the first frame, the second
into the second message. -/
theorem handleInbound_encoded_sample :
    handleInbound (ingest Hemera.truncating)
        [sampleStream.take 2, (sampleStream.drop 2).take 400, (sampleStream.drop 2).drop 400]
        PeerState.default =
      (sampleMsgs.foldl (ingest Hemera.truncating) PeerState.default, []) := by
  refine handleInbound_encoded (ingest Hemera.truncating) PeerState.default ?_
    (by decide +kernel) (by decide +kernel) ?_
  · simp only [sampleMsgs, List.forall_mem_cons]
    exact ⟨.claimAnnounce (by decide) (by decide +kernel), .selfAcc (by decide) (by decide +kernel),
      .receiptHash, by simp⟩
  · simp only [List.flatten_cons, List.flatten_nil, List.append_nil, List.take_append_drop]
    rfl

end Foculus.Gossip

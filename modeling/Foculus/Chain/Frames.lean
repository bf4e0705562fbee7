import Foculus.Chain.Signal
import Foculus.Crates.Tape

namespace Foculus.Chain

open Data

/-! # Signal and intent frames (`src/frames.rs`) -/

/-- `bbg::IntentRecord`. -/
structure IntentRecord where
  neuron : NeuronId
  h0 : UInt64
  scopeHash : Particle
  signature : Vector UInt8 64
deriving DecidableEq

inductive CyberFrame where
  | signal (sig : Signal)
  | intent (record : IntentRecord)
deriving DecidableEq

def renderBin : UInt8 := 'b'.toUInt8

section Payloads

def take32 : Reader Particle := Reader.array 32

def takeU64 : Reader UInt64 := Reader.u64

def takeU32 : Reader Nat := Reader.number 4

def takeU8 : Reader UInt8 := Reader.u8

def u32Bytes (value : Nat) : List UInt8 := leBytes 4 value

def serializeSignal (sig : Signal) : List UInt8 :=
  sig.neuron.toList ++ u64Bytes sig.step ++ sig.prev.toList ++ u64Bytes sig.height ++
    u32Bytes sig.links.length ++ sig.links.flatMap Signal.linkBytes ++
    u32Bytes sig.boxMoves.length ++ sig.boxMoves.flatMap Signal.moveBytes ++
    u32Bytes sig.deltaPi.length ++ sig.deltaPi.flatMap Signal.deltaBytes

def takeLink : Reader CyberlinkRecord := do
  let neuron ← take32
  let source ← take32
  let target ← take32
  let token ← take32
  let amount ← takeU64
  let valence ← takeU8
  let height ← takeU64
  return { neuron, «from» := source, «to» := target, token, amount, valence := valence.toInt8, height }

def takeMove : Reader BoxMoveRecord := do
  let nullifier ← take32
  let tag ← takeU8
  if tag = 0 then return { nullifier, commitment := none }
  else if tag = 1 then
    let point ← take32
    let value ← takeU64
    return { nullifier, commitment := some (point, value) }
  else failure

def takeDelta : Reader (Particle × UInt64) := do
  let target ← take32
  let amount ← takeU64
  return (target, amount)

/-- A count and as many records. -/
def takeCounted (reader : Reader α) : Reader (List α) := do
  let count ← takeU32
  Reader.repeated reader count

def takeSignal : Reader Signal := do
  let neuron ← take32
  let step ← takeU64
  let prev ← take32
  let height ← takeU64
  let links ← takeCounted takeLink
  let boxMoves ← Reader.optional [] (takeCounted takeMove)
  let deltaPi ← Reader.optional [] (takeCounted takeDelta)
  return { neuron, network := selfNetwork, links, deltaPi, boxMoves, prev, step, height }

def deserializeSignal (bytes : List UInt8) : Option Signal := (takeSignal bytes).map Prod.fst

def serializeIntent (record : IntentRecord) : List UInt8 :=
  record.neuron.toList ++ u64Bytes record.h0 ++ record.scopeHash.toList ++ record.signature.toList

def takeIntent : Reader IntentRecord := do
  let neuron ← take32
  let h0 ← takeU64
  let scopeHash ← take32
  let signature ← Reader.array 64
  return { neuron, h0, scopeHash, signature }

def deserializeIntent (bytes : List UInt8) : Option IntentRecord := (takeIntent bytes).map Prod.fst

end Payloads

section Frames

variable (tape : Tape)

def signalChunk (sig : Signal) : Tape.Chunk where
  sigil := tape.zap
  render := renderBin
  payload := serializeSignal sig

def intentChunk (record : IntentRecord) : Tape.Chunk where
  sigil := tape.ket
  render := renderBin
  payload := serializeIntent record

def encodeSignalFrame (sig : Signal) : List UInt8 := tape.encode (signalChunk tape sig)

def encodeIntentFrame (record : IntentRecord) : List UInt8 := tape.encode (intentChunk tape record)

/-- The frame of an event: one of the two encoders. -/
def encodeFrame : CyberFrame → List UInt8
  | .signal sig => encodeSignalFrame tape sig
  | .intent record => encodeIntentFrame tape record

def decodeSignalFrame (bytes : List UInt8) : Option Signal :=
  match (tape.nextChunk (tape.feed tape.new bytes)).1 with
  | .chunk chunk => if chunk.sigil = tape.zap then deserializeSignal chunk.payload else none
  | _ => none

def chunkSignal (chunk : Tape.Chunk) : Option Signal :=
  if chunk.sigil = tape.zap then deserializeSignal chunk.payload else none

def chunkEvent (chunk : Tape.Chunk) : Option CyberFrame :=
  if chunk.sigil = tape.zap then (deserializeSignal chunk.payload).map .signal
  else if chunk.sigil = tape.ket then (deserializeIntent chunk.payload).map .intent
  else none

/-- The loop over the chunks of a reader, with what was decoded so far; `none`
when the fuel runs out before the reader does. -/
def decodeFrom (decode : Tape.Chunk → Option α) : (fuel : Nat) → tape.Reader → List α →
    Option (List α)
  | 0, _, _ => none
  | fuel + 1, reader, out =>
      match tape.nextChunk reader with
      | (.chunk chunk, after) => decodeFrom decode fuel after (out ++ (decode chunk).toList)
      | (.pending, _) => some out
      | (.eof, _) => some out

def decodeSignals (fuel : Nat) (bytes : List UInt8) : Option (List Signal) :=
  decodeFrom tape (chunkSignal tape) fuel (tape.feed tape.new bytes) []

def decodeEvents (fuel : Nat) (bytes : List UInt8) : Option (List CyberFrame) :=
  decodeFrom tape (chunkEvent tape) fuel (tape.feed tape.new bytes) []

end Frames

/-! ## Round trip -/

section Fields

theorem take32_reads (particle : Particle) : Reads take32 particle.toList particle :=
  .array particle

theorem takeU64_reads (value : UInt64) : Reads takeU64 (u64Bytes value) value := .u64 value

theorem takeLink_reads (link : CyberlinkRecord) :
    Reads takeLink (Signal.linkBytes link) link := by
  simp only [Signal.linkBytes, List.append_assoc]
  refine (take32_reads link.neuron).bind ((take32_reads link.from).bind
    ((take32_reads link.to).bind ((take32_reads link.token).bind
    ((takeU64_reads link.amount).bind ((Reads.u8 link.valence.toUInt8).bind ?_)))))
  exact (takeU64_reads link.height).last _

theorem takeMove_reads (move : BoxMoveRecord) :
    Reads takeMove (Signal.moveBytes move) move := by
  obtain ⟨nullifier, commitment⟩ := move
  refine (take32_reads nullifier).bind ?_
  cases commitment with
  | none =>
      change Reads _ ([0] ++ []) _
      exact (Reads.u8 0).bind (.pure _)
  | some commitment =>
      obtain ⟨point, value⟩ := commitment
      change Reads _ ([1] ++ (point.toList ++ u64Bytes value)) _
      exact (Reads.u8 1).bind ((take32_reads point).bind ((takeU64_reads value).last _))

theorem takeDelta_reads (delta : Particle × UInt64) :
    Reads takeDelta (Signal.deltaBytes delta) delta :=
  (take32_reads delta.1).bind ((takeU64_reads delta.2).last _)

theorem takeCounted_reads {encode : α → List UInt8} {reader : Reader α} {values : List α}
    (fits : values.length < 2 ^ 32) (each : ∀ value, Reads reader (encode value) value) :
    Reads (takeCounted reader) (u32Bytes values.length ++ values.flatMap encode) values :=
  (Reads.number fits).bind (Reads.repeated fun value _ => each value)

end Fields

/-- What a frame can carry: a signal of the own network with 32-bit counts. -/
structure Shippable (sig : Signal) : Prop where
  network : sig.network = selfNetwork
  links : sig.links.length < 2 ^ 32
  boxMoves : sig.boxMoves.length < 2 ^ 32
  deltaPi : sig.deltaPi.length < 2 ^ 32

theorem takeSignal_reads {sig : Signal} (shippable : Shippable sig) :
    Reads takeSignal (serializeSignal sig) sig := by
  have links := takeCounted_reads shippable.links takeLink_reads
  have moves := (takeCounted_reads shippable.boxMoves takeMove_reads).optional []
    (by simp [u32Bytes, leBytes])
  have deltas := (takeCounted_reads shippable.deltaPi takeDelta_reads).optional []
    (by simp [u32Bytes, leBytes])
  simp only [serializeSignal, List.append_assoc]
  rw [← List.append_assoc (u32Bytes sig.links.length), ← List.append_assoc (u32Bytes sig.boxMoves.length)]
  refine (take32_reads sig.neuron).bind ((takeU64_reads sig.step).bind
    ((take32_reads sig.prev).bind ((takeU64_reads sig.height).bind
    (links.bind (moves.bind ?_)))))
  have whole : { sig with network := selfNetwork, deltaPi := sig.deltaPi } = sig := by
    rw [← shippable.network]
  have read := deltas.last fun deltaPi => { sig with network := selfNetwork, deltaPi }
  rw [whole] at read
  exact read

theorem takeIntent_reads (record : IntentRecord) :
    Reads takeIntent (serializeIntent record) record := by
  simp only [serializeIntent, List.append_assoc]
  exact (take32_reads record.neuron).bind ((takeU64_reads record.h0).bind
    ((take32_reads record.scopeHash).bind ((Reads.array record.signature).last _)))

theorem deserializeSignal_serialized {sig : Signal} (shippable : Shippable sig) :
    deserializeSignal (serializeSignal sig) = some sig := by
  rw [deserializeSignal, (takeSignal_reads shippable).all, Option.map_some]

theorem deserializeIntent_serialized (record : IntentRecord) :
    deserializeIntent (serializeIntent record) = some record := by
  rw [deserializeIntent, (takeIntent_reads record).all, Option.map_some]

section Streams

variable {tape : Tape}

/-- A decoder that goes by the sigil and the payload of a chunk decodes every
chunk a reader yields. -/
theorem decodeFrom_yields {decode : Tape.Chunk → Option α} {reader : tape.Reader}
    {chunks : List Tape.Chunk} {fuel : Nat} (out : List α)
    (blind : ∀ left right : Tape.Chunk, left.sigil = right.sigil →
      left.payload = right.payload → decode left = decode right)
    (yields : tape.Yields reader chunks) (enough : chunks.length < fuel) :
    decodeFrom tape decode fuel reader out = some (out ++ chunks.filterMap decode) := by
  induction yields generalizing fuel out with
  | @stop reader stopped =>
      obtain ⟨fuel, rfl⟩ := Nat.exists_eq_add_of_lt enough
      rcases called : tape.nextChunk reader with ⟨_ | _ | _, after⟩
      · exact absurd (congrArg Prod.fst called) (stopped _)
      · simp [decodeFrom, called]
      · simp [decodeFrom, called]
  | @next reader after read chunk chunks called sigil payload rest ih =>
      obtain ⟨fuel, rfl⟩ := Nat.exists_eq_succ_of_ne_zero (Nat.ne_zero_of_lt enough)
      have tail := ih (out ++ (decode read).toList) (Nat.lt_of_succ_lt_succ enough)
      rw [decodeFrom, called]
      change decodeFrom tape decode fuel after (out ++ (decode read).toList) = _
      rw [tail, blind read chunk sigil payload, List.append_assoc]
      cases decoded : decode chunk with
      | none => simp [decoded]
      | some value => simp [decoded]

def eventChunk (tape : Tape) : CyberFrame → Tape.Chunk
  | .signal sig => signalChunk tape sig
  | .intent record => intentChunk tape record

theorem encodeFrame_chunk (event : CyberFrame) :
    encodeFrame tape event = tape.encode (eventChunk tape event) := by
  cases event <;> rfl

def CyberFrame.signal? : CyberFrame → Option Signal
  | .signal sig => some sig
  | .intent _ => none

theorem chunkEvent_eventChunk (sigils : tape.zap ≠ tape.ket) {event : CyberFrame}
    (shippable : ∀ sig, event = .signal sig → Shippable sig) :
    chunkEvent tape (eventChunk tape event) = some event := by
  cases event with
  | signal sig =>
      have decoded := deserializeSignal_serialized (shippable sig rfl)
      simp [chunkEvent, eventChunk, signalChunk, decoded]
  | intent record =>
      have decoded := deserializeIntent_serialized record
      simp [chunkEvent, eventChunk, intentChunk, decoded, sigils.symm]

theorem chunkSignal_eventChunk (sigils : tape.zap ≠ tape.ket) {event : CyberFrame}
    (shippable : ∀ sig, event = .signal sig → Shippable sig) :
    chunkSignal tape (eventChunk tape event) = event.signal? := by
  cases event with
  | signal sig =>
      have decoded := deserializeSignal_serialized (shippable sig rfl)
      simp [chunkSignal, eventChunk, signalChunk, decoded, CyberFrame.signal?]
  | intent record =>
      simp [chunkSignal, eventChunk, intentChunk, sigils.symm, CyberFrame.signal?]

/-- A stream of frames decodes to what its chunks decode to. -/
theorem decodeFrom_frames (lawful : tape.Lawful) (decode : Tape.Chunk → Option α)
    (blind : ∀ left right : Tape.Chunk, left.sigil = right.sigil →
      left.payload = right.payload → decode left = decode right)
    {events : List CyberFrame} {fuel : Nat} (enough : events.length < fuel) :
    decodeFrom tape decode fuel (tape.feed tape.new (events.flatMap (encodeFrame tape))) [] =
      some (events.filterMap fun event => decode (eventChunk tape event)) := by
  have yields := lawful.yields (events.map (eventChunk tape))
  have stream : (events.map (eventChunk tape)).flatMap tape.encode =
      events.flatMap (encodeFrame tape) := by
    rw [List.flatMap_map]
    exact List.flatMap_congr fun event _ => (encodeFrame_chunk event).symm
  rw [stream] at yields
  rw [decodeFrom_yields [] blind yields (by rwa [List.length_map]), List.nil_append,
    List.filterMap_map]
  rfl

/-- Replaying a stream of frames, whose reader ends after one call for each
frame, gives back what was written. -/
theorem decode_encoded (lawful : tape.Lawful) (events : List CyberFrame)
    (shippable : ∀ sig, .signal sig ∈ events → Shippable sig) {fuel : Nat}
    (enough : events.length < fuel) :
    decodeEvents tape fuel (events.flatMap (encodeFrame tape)) = some events ∧
      decodeSignals tape fuel (events.flatMap (encodeFrame tape)) =
        some (events.filterMap CyberFrame.signal?) := by
  have each (event : CyberFrame) (member : event ∈ events) (sig : Signal)
      (isSignal : event = .signal sig) : Shippable sig := shippable sig (isSignal ▸ member)
  constructor
  · have decoded := decodeFrom_frames lawful (chunkEvent tape)
      (fun left right sigil payload => by simp only [chunkEvent, sigil, payload]) enough
    rw [decodeEvents, decoded, List.filterMap_congr fun event member =>
      chunkEvent_eventChunk lawful.sigils (each event member), List.filterMap_some]
  · have decoded := decodeFrom_frames lawful (chunkSignal tape)
      (fun left right sigil payload => by simp only [chunkSignal, sigil, payload]) enough
    rw [decodeSignals, decoded, List.filterMap_congr fun event member =>
      chunkSignal_eventChunk lawful.sigils (each event member)]

def sampleIntent : IntentRecord where
  neuron := Particle.padded [7]
  h0 := 9
  scopeHash := Particle.padded [8]
  signature := Vector.replicate 64 5

def sampleSignal : Signal where
  neuron := Particle.padded [7]
  network := selfNetwork
  links := [
    { neuron := Particle.padded [7]
      «from» := Particle.padded [1]
      «to» := Particle.padded [2]
      token := Particle.zero
      amount := 300
      valence := -1
      height := 4 }]
  deltaPi := [(Particle.padded [3], 70000)]
  boxMoves := [
    { nullifier := Particle.padded [4], commitment := some (Particle.padded [5], 6) },
    { nullifier := Particle.padded [6], commitment := none }]
  prev := Particle.zero
  step := 1
  height := 2

def sampleEvents : List CyberFrame := [.intent sampleIntent, .signal sampleSignal]

theorem decode_encoded_sample :
    decodeEvents Tape.plain 3 (sampleEvents.flatMap (encodeFrame Tape.plain)) =
        some sampleEvents ∧
      decodeSignals Tape.plain 3 (sampleEvents.flatMap (encodeFrame Tape.plain)) =
        some (sampleEvents.filterMap CyberFrame.signal?) := by
  refine decode_encoded Tape.plain_lawful sampleEvents ?_ (by decide)
  intro sig member
  simp only [sampleEvents, List.mem_cons, reduceCtorEq, CyberFrame.signal.injEq, List.not_mem_nil,
    or_false, false_or] at member
  subst member
  exact ⟨rfl, by decide, by decide, by decide⟩

/-- One frame on its own. -/
theorem decodeSignalFrame_encoded (lawful : tape.Lawful) {sig : Signal}
    (shippable : Shippable sig) : decodeSignalFrame tape (encodeSignalFrame tape sig) = some sig := by
  have yields := lawful.yields [signalChunk tape sig]
  rw [List.flatMap_singleton] at yields
  cases yields with
  | @next _ after read _ _ called sigil payload rest =>
      have decoded : read.sigil = tape.zap ∧ deserializeSignal read.payload = some sig :=
        ⟨sigil, payload ▸ deserializeSignal_serialized shippable⟩
      rw [decodeSignalFrame, encodeSignalFrame, called]
      simp only [decoded, if_true]

end Streams

end Foculus.Chain

import Foculus.Data.Cursor
import Foculus.Gossip.Wire

namespace Foculus.Gossip.Slicing

open Data Settlement

/-! The decoders as they slice the buffer.

`src/wire.rs` asks before every field whether its bytes are there.  The compact
decoder of `src/gossip.rs` asks once for the fixed fields and once for each counted
section, and slices without asking in between.
-/

section Wire

variable (bytes : List UInt8)

def readNumber (width : Nat) : Cursor Nat := do
  Cursor.need bytes width
  Cursor.number bytes width

def read32 : Cursor Particle := do
  Cursor.need bytes 32
  Cursor.next bytes 32

def readU64 : Cursor UInt64 := do
  let value ← readNumber bytes 8
  return UInt64.ofNat value

def readU32 : Cursor Nat := readNumber bytes 4

def readU128 : Cursor Nat := readNumber bytes 16

/-- `Fx::from_raw(Goldilocks::new(read_u64(bytes, off)?))`. -/
def readFx : Cursor Fx := do
  let raw ← readU64 bytes
  return ⟨.new raw.toNat⟩

def decodeLink : Cursor Link := do
  let neuron ← read32 bytes
  let source ← read32 bytes
  let target ← read32 bytes
  let amount ← readU128 bytes
  let valence ← Cursor.byte bytes
  let price ← readFx bytes
  return { neuron, «from» := source, «to» := target, amount, valence := valence.toInt8, price }

def decodeClaimBody (id neuron : Particle) : Cursor RewardClaim := do
  let belief ← readFx bytes
  let prediction ← readFx bytes
  let n ← readU32 bytes
  let links ← Cursor.repeated (decodeLink bytes) n
  return { id, neuron, links, belief, prediction }

def decodeSample : Cursor (Particle × UInt64) := do
  let miner ← read32 bytes
  let nonce ← readU64 bytes
  return (miner, nonce)

def decodeAccBody : Cursor ClusterAcc := do
  let k ← readU64 bytes
  let n ← readU32 bytes
  let sumM ← Cursor.repeated (readFx bytes) n
  let sn ← readU32 bytes
  let samples ← Cursor.repeated (decodeSample bytes) sn
  let commitment ← read32 bytes
  return { sumM, k, seen := insertSamples samples, commitment }

def decodeTyped (ty : UInt8) : Cursor SettleMsg :=
  if ty = tyClaim then do
    let topic ← read32 bytes
    let claimId ← read32 bytes
    let neuron ← read32 bytes
    let claim ← decodeClaimBody bytes claimId neuron
    return .claimAnnounce topic claimId neuron claim
  else if ty = tySelfAcc then do
    let topic ← read32 bytes
    let miner ← read32 bytes
    let acc ← decodeAccBody bytes
    return .selfAcc topic miner acc
  else if ty = tyReceipt then do
    let topic ← read32 bytes
    let receiptHash ← read32 bytes
    let epoch ← readU64 bytes
    return .receiptHash topic receiptHash epoch
  else Action.fail ()

/-- `decode_settle_msg`: the header, then the body from offset 6. -/
def decodeSettleMsg : Outcome Unit SettleMsg :=
  if bytes.length < 6 then .err ()
  else do
    let tag ← (Cursor.slice bytes 0 4 0).1
    let stated ← .expect bytes[4]?
    if tag ≠ magic ∨ stated ≠ version then .err ()
    else do
      let ty ← .expect bytes[5]?
      (decodeTyped bytes ty 6).1

end Wire

section Compact

def compactMagic : List UInt8 := strBytes "FSC1"

def encodeSelfAcc (topic : Topic) (miner : Particle) (acc : ClusterAcc) : List UInt8 :=
  compactMagic ++ topic.toList ++ miner.toList ++ u64Bytes acc.k ++ u32Bytes acc.sumM.length ++
    acc.sumM.flatMap fxBytes ++ u32Bytes acc.seen.size ++ acc.seen.toList.flatMap encodeSample ++
    acc.commitment.toList

variable (bytes : List UInt8)

def nextU64 : Cursor UInt64 := do
  let value ← Cursor.number bytes 8
  return UInt64.ofNat value

def nextFx : Cursor Fx := do
  let raw ← nextU64 bytes
  return ⟨.new raw.toNat⟩

def nextSample : Cursor (Particle × UInt64) := do
  let miner ← Cursor.next bytes 32
  let nonce ← nextU64 bytes
  return (miner, nonce)

def compactFields : Cursor (Topic × Particle × ClusterAcc) := do
  let topic ← Cursor.next bytes 32
  let miner ← Cursor.next bytes 32
  let k ← nextU64 bytes
  let n ← Cursor.number bytes 4
  Cursor.need bytes (n * 8 + 4)
  let sumM ← Cursor.repeated (nextFx bytes) n
  let sn ← Cursor.number bytes 4
  Cursor.need bytes (sn * 40 + 32)
  let samples ← Cursor.repeated (nextSample bytes) sn
  let commitment ← Cursor.next bytes 32
  return (topic, miner, { sumM, k, seen := insertSamples samples, commitment })

/-- `decode_self_acc`: the tag, then the fields from offset 4. -/
def decodeSelfAcc : Outcome Unit (Topic × Particle × ClusterAcc) :=
  if bytes.length < 4 + 32 + 32 + 8 + 4 then .err ()
  else do
    let tag ← (Cursor.slice bytes 0 4 0).1
    if tag ≠ compactMagic then .err ()
    else (compactFields bytes 4).1

end Compact

/-! ## Both follow the reader of the body -/

/-- What a self accumulator has behind its tag in either format. -/
def selfAccBody : Reader (Topic × Particle × ClusterAcc) := do
  let topic ← Gossip.read32
  let miner ← Gossip.read32
  let acc ← Gossip.decodeAccBody
  return (topic, miner, acc)

theorem decodeSelfAcc_selfAccBody (body : List UInt8) :
    (Gossip.decodeSelfAcc body).map Prod.fst =
      (selfAccBody body).map fun ((topic, miner, acc), _) => .selfAcc topic miner acc := by
  have renamed : Gossip.decodeSelfAcc = do
      let (topic, miner, acc) ← selfAccBody
      return .selfAcc topic miner acc := by
    simp only [Gossip.decodeSelfAcc, selfAccBody, bind_assoc, pure_bind]
  rw [renamed]
  change ((selfAccBody body).bind _).map Prod.fst = _
  cases selfAccBody body with
  | none => rfl
  | some read => rfl

theorem selfAccBody_reads {topic : Topic} {miner : Particle} {acc : ClusterAcc}
    (sums : acc.sumM.length < 2 ^ 32) (samples : acc.seen.size < 2 ^ 32) :
    Reads selfAccBody (topic.toList ++ (miner.toList ++ encodeAccBody acc)) (topic, miner, acc) :=
  (read32_reads topic).bind ((read32_reads miner).bind ((decodeAccBody_reads sums samples).last _))

section Follows

variable {bytes : List UInt8} (slice : bytes.length < 2 ^ 63)
include slice

theorem readNumber_follows {width : Nat} (small : width < 2 ^ 63) :
    Follows bytes 0 (readNumber bytes width) (Reader.number width) :=
  .need slice small (Reader.Fixed.number width).needs (.number slice width)

theorem read32_follows : Follows bytes 0 (read32 bytes) Gossip.read32 :=
  .need slice (by decide) (Reader.Fixed.array 32).needs (.next slice 32)

theorem readU64_follows : Follows bytes 0 (readU64 bytes) Gossip.readU64 :=
  (readNumber_follows slice (by decide)).bind fun _ _ => .pure bytes _

theorem readFx_follows : Follows bytes 0 (readFx bytes) Gossip.readFx :=
  (readU64_follows slice).bind fun _ _ => .pure bytes _

theorem decodeLink_follows : Follows bytes 0 (decodeLink bytes) Gossip.decodeLink :=
  (read32_follows slice).bind fun _ _ => (read32_follows slice).bind fun _ _ =>
    (read32_follows slice).bind fun _ _ => (readNumber_follows slice (by decide)).bind fun _ _ =>
    (Follows.byte slice).bind fun _ _ => (readFx_follows slice).bind fun _ _ => .pure bytes _

theorem decodeClaimBody_follows (id neuron : Particle) :
    Follows bytes 0 (decodeClaimBody bytes id neuron) (Gossip.decodeClaimBody id neuron) :=
  (readFx_follows slice).bind fun _ _ => (readFx_follows slice).bind fun _ _ =>
    (readNumber_follows slice (by decide)).bind fun n _ =>
    ((decodeLink_follows slice).repeated n).bind fun _ _ => .pure bytes _

theorem decodeSample_follows : Follows bytes 0 (decodeSample bytes) Gossip.decodeSample :=
  (read32_follows slice).bind fun _ _ => (readU64_follows slice).bind fun _ _ => .pure bytes _

theorem decodeAccBody_follows : Follows bytes 0 (decodeAccBody bytes) Gossip.decodeAccBody :=
  (readU64_follows slice).bind fun _ _ => (readNumber_follows slice (by decide)).bind fun n _ =>
    ((readFx_follows slice).repeated n).bind fun _ _ =>
    (readNumber_follows slice (by decide)).bind fun sn _ =>
    ((decodeSample_follows slice).repeated sn).bind fun _ _ =>
    (read32_follows slice).bind fun _ _ => .pure bytes _

theorem nextU64_follows : Follows bytes 8 (nextU64 bytes) Gossip.readU64 :=
  (Follows.number slice 8).bind fun _ _ => .pure bytes _

theorem nextFx_follows : Follows bytes 8 (nextFx bytes) Gossip.readFx :=
  (nextU64_follows slice).bind fun _ _ => .pure bytes _

theorem nextSample_follows : Follows bytes 40 (nextSample bytes) Gossip.decodeSample :=
  (Follows.next slice 32).bind_fixed (.array 32) fun _ _ =>
    (nextU64_follows slice).bind fun _ _ => .pure bytes _

omit slice in
theorem readFx_fixed : Gossip.readFx.Fixed 8 := Reader.Fixed.u64.last _

omit slice in
theorem decodeSample_fixed : Gossip.decodeSample.Fixed 40 :=
  (Reader.Fixed.array 32).bind fun _ => Reader.Fixed.u64.last _

/-- Each check of the compact decoder asks for the bytes that are sliced up to the next. -/
theorem compactFields_follows :
    Follows bytes 76 (compactFields bytes) selfAccBody := by
  simp only [selfAccBody, Gossip.decodeAccBody, bind_assoc, pure_bind]
  change Follows bytes (32 + (32 + (8 + (4 + 0)))) _ _
  refine (Follows.next slice 32).bind_fixed (.array 32) fun topic _ =>
    (Follows.next slice 32).bind_fixed (.array 32) fun miner _ =>
    (nextU64_follows slice).bind_fixed .u64 fun k _ =>
    (Follows.number slice 4).bind_fixed (.number 4) fun n sums => ?_
  have sumCount := Reader.number_lt sums
  refine .need slice (by omega) ((readFx_fixed.repeated n).needs_bind fun _ =>
    (Reader.Fixed.number 4).needs_bind fun _ => .zero _) ?_
  change Follows bytes (n * 8 + (4 + 0)) _ _
  refine ((nextFx_follows slice).repeated_fixed readFx_fixed n).bind_fixed
    (readFx_fixed.repeated n) fun sumM _ =>
    (Follows.number slice 4).bind_fixed (.number 4) fun sn samples => ?_
  have sampleCount := Reader.number_lt samples
  refine .need slice (by omega) ((decodeSample_fixed.repeated sn).needs_bind fun _ =>
    (Reader.Fixed.array 32).needs_bind fun _ => .zero _) ?_
  exact ((nextSample_follows slice).repeated_fixed decodeSample_fixed sn).bind_fixed
    (decodeSample_fixed.repeated sn) fun _ _ =>
    (Follows.next slice 32).bind fun _ _ => .pure bytes _

end Follows

/-- The answer of a decoder that does not abort. -/
def answer : Option α → Outcome Unit α
  | some value => .ok value
  | none => .err ()

theorem agrees_answer {bytes : List UInt8} {called : Outcome Unit α × Nat}
    {read : Option (α × List UInt8)} (agrees : Agrees bytes called read) :
    called.1 = answer (read.map Prod.fst) := by
  cases read with
  | none => exact agrees
  | some result =>
      obtain ⟨_, -, rfl, -⟩ := agrees
      rfl

theorem decodeTyped_eq {bytes : List UInt8} (slice : bytes.length < 2 ^ 63)
    (long : 6 ≤ bytes.length) (ty : UInt8) :
    (decodeTyped bytes ty 6).1 = answer (
      if ty = tyClaim then (decodeClaimAnnounce (bytes.drop 6)).map Prod.fst
      else if ty = tySelfAcc then (Gossip.decodeSelfAcc (bytes.drop 6)).map Prod.fst
      else if ty = tyReceipt then (decodeReceiptHash (bytes.drop 6)).map Prod.fst
      else none) := by
  have claim : Follows bytes 0 _ decodeClaimAnnounce :=
    (read32_follows slice).bind fun topic _ => (read32_follows slice).bind fun claimId _ =>
    (read32_follows slice).bind fun neuron _ =>
    (decodeClaimBody_follows slice claimId neuron).bind fun _ _ => .pure bytes _
  have selfAcc : Follows bytes 0 _ Gossip.decodeSelfAcc :=
    (read32_follows slice).bind fun topic _ => (read32_follows slice).bind fun miner _ =>
    (decodeAccBody_follows slice).bind fun _ _ => .pure bytes _
  have receipt : Follows bytes 0 _ decodeReceiptHash :=
    (read32_follows slice).bind fun topic _ => (read32_follows slice).bind fun hash _ =>
    (readU64_follows slice).bind fun _ _ => .pure bytes _
  rw [decodeTyped]
  split_ifs
  · exact agrees_answer (claim 6 long)
  · exact agrees_answer (selfAcc 6 long)
  · exact agrees_answer (receipt 6 long)
  · rfl

/-- `decode_settle_msg` returns on every buffer, and what the reader of the body reads. -/
theorem decodeSettleMsg_eq {bytes : List UInt8} (slice : bytes.length < 2 ^ 63) :
    decodeSettleMsg bytes = answer (Gossip.decodeSettleMsg bytes) := by
  rw [decodeSettleMsg, Gossip.decodeSettleMsg]
  by_cases short : bytes.length < 6
  · rw [if_pos short, if_pos short]
    rfl
  · have long : 6 ≤ bytes.length := Nat.le_of_not_lt short
    have tag := Cursor.slice_apply 0 (Nat.zero_le 4) (show 4 ≤ bytes.length by omega)
    have stated : bytes[4]? = some (bytes.getD 4 0) := by
      rw [List.getD_eq_getElem?_getD, List.getElem?_eq_getElem (by omega), Option.getD_some]
    have typed : bytes[5]? = some (bytes.getD 5 0) := by
      rw [List.getD_eq_getElem?_getD, List.getElem?_eq_getElem (by omega), Option.getD_some]
    rw [if_neg short, if_neg short, tag, stated, typed]
    simp only [List.drop_zero, Nat.sub_zero, Outcome.ok_bind, Outcome.expect_some]
    by_cases foreign : bytes.take 4 ≠ magic ∨ bytes.getD 4 0 ≠ version
    · rw [if_pos foreign, if_pos foreign]
      rfl
    · rw [if_neg foreign, if_neg foreign]
      exact decodeTyped_eq slice long _

/-- The first check asks for the fixed fields, without which there is nothing to read. -/
theorem selfAccBody_needs : selfAccBody.Needs 76 := by
  simp only [selfAccBody, Gossip.decodeAccBody, bind_assoc, pure_bind]
  exact (Reader.Fixed.array 32).needs_bind fun _ => (Reader.Fixed.array 32).needs_bind fun _ =>
    Reader.Fixed.u64.needs_bind fun _ => (Reader.Fixed.number 4).needs_bind fun _ =>
    Reader.Needs.zero _

theorem decodeSelfAcc_eq {body : List UInt8} (slice : (compactMagic ++ body).length < 2 ^ 63) :
    decodeSelfAcc (compactMagic ++ body) = answer ((selfAccBody body).map Prod.fst) := by
  have tagLength : compactMagic.length = 4 := by decide
  have behind : (compactMagic ++ body).drop 4 = body := List.drop_left' tagLength
  rw [decodeSelfAcc]
  by_cases short : (compactMagic ++ body).length < 4 + 32 + 32 + 8 + 4
  · rw [List.length_append, tagLength] at short
    rw [if_pos (by rw [List.length_append, tagLength]; omega), selfAccBody_needs body (by omega)]
    rfl
  · have within : 4 + 76 ≤ (compactMagic ++ body).length := Nat.le_of_not_lt short
    have tag := Cursor.slice_apply 0 (Nat.zero_le 4)
      (show 4 ≤ (compactMagic ++ body).length by omega)
    rw [if_neg short, tag, List.drop_zero, Nat.sub_zero, List.take_left' tagLength]
    simp only [Outcome.ok_bind, ne_eq, not_true_eq_false, if_false]
    have agrees := compactFields_follows slice 4 within
    rw [behind] at agrees
    exact agrees_answer agrees

/-- The compact format round trips. -/
theorem decodeSelfAcc_encoded {topic : Topic} {miner : Particle} {acc : ClusterAcc}
    (sums : acc.sumM.length < 2 ^ 32) (samples : acc.seen.size < 2 ^ 32)
    (slice : (encodeSelfAcc topic miner acc).length < 2 ^ 63) :
    decodeSelfAcc (encodeSelfAcc topic miner acc) = .ok (topic, miner, acc) := by
  have split : encodeSelfAcc topic miner acc =
      compactMagic ++ (topic.toList ++ (miner.toList ++ encodeAccBody acc)) := by
    simp only [encodeSelfAcc, encodeAccBody, List.append_assoc]
  rw [split] at slice ⊢
  rw [decodeSelfAcc_eq slice, (selfAccBody_reads sums samples).all]
  rfl

/-- Behind their tags the two formats of a self accumulator are one: on every body the
two decoders either both return nothing or both return the same accumulator.  Neither
aborts. -/
theorem compact_decodes_as_wire (body : List UInt8) (slice : body.length + 6 < 2 ^ 63) :
    (decodeSelfAcc (compactMagic ++ body) = .err () ∧
      decodeSettleMsg (header tySelfAcc ++ body) = .err ()) ∨
    ∃ topic miner acc, decodeSelfAcc (compactMagic ++ body) = .ok (topic, miner, acc) ∧
      decodeSettleMsg (header tySelfAcc ++ body) = .ok (.selfAcc topic miner acc) := by
  have compactLength : compactMagic.length = 4 := by decide
  have headerLength : (header tySelfAcc).length = 6 := by decide
  rw [decodeSelfAcc_eq (by rw [List.length_append]; omega),
    decodeSettleMsg_eq (by rw [List.length_append]; omega), decode_header,
    if_neg (by decide), if_pos rfl, decodeSelfAcc_selfAccBody]
  cases selfAccBody body with
  | none => exact .inl ⟨rfl, rfl⟩
  | some read =>
      obtain ⟨⟨topic, miner, acc⟩, _⟩ := read
      exact .inr ⟨topic, miner, acc, rfl, rfl⟩

/-- A count of `2 ^ 32 - 1` sums over an empty section. -/
theorem compact_decodes_as_wire_huge_count :
    let body := (List.replicate 72 0 ++ List.replicate 4 255 : List UInt8)
    decodeSelfAcc (compactMagic ++ body) = .err () ∧
      decodeSettleMsg (header tySelfAcc ++ body) = .err () := by
  intro body
  rcases compact_decodes_as_wire body (by decide) with neither | ⟨topic, miner, acc, decoded, -⟩
  · exact neither
  · have refused : (decodeSelfAcc (compactMagic ++ body)).void = .err () := by decide +kernel
    rw [decoded] at refused
    cases refused

end Foculus.Gossip.Slicing

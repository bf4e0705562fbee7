import Foculus.Data.Framing
import Foculus.Data.Reader
import Foculus.Gossip.Message

namespace Foculus.Gossip

open Data Settlement

/-! # The wire codec (`src/wire.rs`) -/

def magic : List UInt8 := strBytes "FSET"

def version : UInt8 := 1

def tyClaim : UInt8 := 1

def tySelfAcc : UInt8 := 2

def tyReceipt : UInt8 := 3

def header (ty : UInt8) : List UInt8 := magic ++ [version] ++ [ty]

section Bodies

def read32 : Reader Particle := Reader.array 32

def readU64 : Reader UInt64 := Reader.u64

def readU32 : Reader Nat := Reader.number 4

def readU128 : Reader Nat := Reader.number 16

def u32Bytes (value : Nat) : List UInt8 := leBytes 4 value

def fxBytes (value : Fx) : List UInt8 := leBytes 8 value.raw.asU64

/-- `Fx::from_raw(Goldilocks::new(read_u64(bytes, off)?))`. -/
def readFx : Reader Fx := do
  let raw ← readU64
  return ⟨.new raw.toNat⟩

def encodeLink (link : Link) : List UInt8 :=
  link.neuron.toList ++ link.from.toList ++ link.to.toList ++ leBytes 16 link.amount ++
    [link.valence.toUInt8] ++ fxBytes link.price

def decodeLink : Reader Link := do
  let neuron ← read32
  let source ← read32
  let target ← read32
  let amount ← readU128
  let valence ← Reader.u8
  let price ← readFx
  return { neuron, «from» := source, «to» := target, amount, valence := valence.toInt8, price }

def encodeClaimBody (claim : RewardClaim) : List UInt8 :=
  fxBytes claim.belief ++ fxBytes claim.prediction ++ u32Bytes claim.links.length ++
    claim.links.flatMap encodeLink

def decodeClaimBody (id neuron : Particle) : Reader RewardClaim := do
  let belief ← readFx
  let prediction ← readFx
  let n ← readU32
  let links ← Reader.repeated decodeLink n
  return { id, neuron, links, belief, prediction }

def encodeSample (sample : Particle × UInt64) : List UInt8 := sample.1.toList ++ u64Bytes sample.2

def decodeSample : Reader (Particle × UInt64) := do
  let miner ← read32
  let nonce ← readU64
  return (miner, nonce)

def encodeAccBody (acc : ClusterAcc) : List UInt8 :=
  u64Bytes acc.k ++ u32Bytes acc.sumM.length ++ acc.sumM.flatMap fxBytes ++
    u32Bytes acc.seen.size ++ acc.seen.toList.flatMap encodeSample ++ acc.commitment.toList

def insertSamples (samples : List (Particle × UInt64)) : Samples :=
  samples.foldl (fun seen sample => seen.insert sample) ∅

def decodeAccBody : Reader ClusterAcc := do
  let k ← readU64
  let n ← readU32
  let sumM ← Reader.repeated readFx n
  let sn ← readU32
  let samples ← Reader.repeated decodeSample sn
  let commitment ← read32
  return { sumM, k, seen := insertSamples samples, commitment }

end Bodies

def encodeSettleMsg : SettleMsg → List UInt8
  | .claimAnnounce topic claimId neuron claim =>
      header tyClaim ++ topic.toList ++ claimId.toList ++ neuron.toList ++ encodeClaimBody claim
  | .selfAcc topic miner acc =>
      header tySelfAcc ++ topic.toList ++ miner.toList ++ encodeAccBody acc
  | .receiptHash topic receiptHash epoch =>
      header tyReceipt ++ topic.toList ++ receiptHash.toList ++ u64Bytes epoch

def decodeClaimAnnounce : Reader SettleMsg := do
  let topic ← read32
  let claimId ← read32
  let neuron ← read32
  let claim ← decodeClaimBody claimId neuron
  return .claimAnnounce topic claimId neuron claim

def decodeSelfAcc : Reader SettleMsg := do
  let topic ← read32
  let miner ← read32
  let acc ← decodeAccBody
  return .selfAcc topic miner acc

def decodeReceiptHash : Reader SettleMsg := do
  let topic ← read32
  let receiptHash ← read32
  let epoch ← readU64
  return .receiptHash topic receiptHash epoch

def decodeSettleMsg (bytes : List UInt8) : Option SettleMsg :=
  if bytes.length < 6 then none
  else if bytes.take 4 ≠ magic ∨ bytes.getD 4 0 ≠ version then none
  else
    let ty := bytes.getD 5 0
    let body := bytes.drop 6
    if ty = tyClaim then (decodeClaimAnnounce body).map Prod.fst
    else if ty = tySelfAcc then (decodeSelfAcc body).map Prod.fst
    else if ty = tyReceipt then (decodeReceiptHash body).map Prod.fst
    else none

def encodeFrame (body : List UInt8) : List UInt8 := u32Bytes body.length ++ body

def splitFrame (buffer : List UInt8) : Option (List UInt8 × List UInt8) :=
  if buffer.length < 4 then none
  else
    let n := ofLeBytes (buffer.take 4)
    if buffer.length < 4 + n then none
    else some ((buffer.drop 4).take n, buffer.drop (4 + n))

/-! ## Round trip -/

section Bodies

theorem fx_eq (value : Fx) : (⟨.new value.raw.asU64⟩ : Fx) = value :=
  Fx.ext (ZMod.natCast_zmod_val value.raw)

theorem asU64_lt (value : Goldilocks) : value.asU64 < 2 ^ 64 :=
  Nat.lt_trans (ZMod.val_lt value) (by norm_num)

theorem read32_reads (particle : Particle) : Reads read32 particle.toList particle :=
  .array particle

theorem readU64_reads (value : UInt64) : Reads readU64 (u64Bytes value) value := .u64 value

theorem readFx_reads (value : Fx) : Reads readFx (fxBytes value) value := by
  have bound := asU64_lt value.raw
  have word := (readU64_reads (UInt64.ofNat value.raw.asU64)).last fun raw => (⟨.new raw.toNat⟩ : Fx)
  rwa [u64Bytes, UInt64.toNat_ofNat_of_lt' bound, fx_eq] at word

theorem decodeLink_reads {link : Link} (amount : link.amount < 2 ^ 128) :
    Reads decodeLink (encodeLink link) link := by
  simp only [encodeLink, List.append_assoc]
  exact (read32_reads link.neuron).bind ((read32_reads link.from).bind
    ((read32_reads link.to).bind ((Reads.number amount).bind
    ((Reads.u8 link.valence.toUInt8).bind ((readFx_reads link.price).last _)))))

theorem decodeClaimBody_reads {claim : RewardClaim} (links : claim.links.length < 2 ^ 32)
    (amounts : ∀ link ∈ claim.links, link.amount < 2 ^ 128) :
    Reads (decodeClaimBody claim.id claim.neuron) (encodeClaimBody claim) claim := by
  simp only [encodeClaimBody, List.append_assoc]
  exact (readFx_reads claim.belief).bind ((readFx_reads claim.prediction).bind
    ((Reads.number links).bind
    ((Reads.repeated fun link member => decodeLink_reads (amounts link member)).last _)))

theorem decodeSample_reads (sample : Particle × UInt64) :
    Reads decodeSample (encodeSample sample) sample :=
  (read32_reads sample.1).bind ((readU64_reads sample.2).last _)

theorem insertSamples_toList (seen : Samples) : insertSamples seen.toList = seen := by
  apply Std.ExtTreeSet.ext_mem
  intro sample
  rw [insertSamples, ← Std.ExtTreeSet.insertMany_list_eq_foldl, Std.ExtTreeSet.mem_insertMany_list]
  simp

theorem decodeAccBody_reads {acc : ClusterAcc} (sums : acc.sumM.length < 2 ^ 32)
    (samples : acc.seen.size < 2 ^ 32) : Reads decodeAccBody (encodeAccBody acc) acc := by
  have size := acc.seen.length_toList
  have count : Reads readU32 (u32Bytes acc.seen.size) acc.seen.toList.length := by
    rw [size]
    exact Reads.number samples
  simp only [encodeAccBody, List.append_assoc]
  have read : Reads decodeAccBody _ { acc with seen := insertSamples acc.seen.toList } :=
    (readU64_reads acc.k).bind ((Reads.number sums).bind
    ((Reads.repeated fun value _ => readFx_reads value).bind (count.bind
    ((Reads.repeated fun sample _ => decodeSample_reads sample).bind
    ((read32_reads acc.commitment).last _)))))
  rw [insertSamples_toList] at read
  exact read

end Bodies

/-- What a frame can carry: the claim's own id and neuron, and the widths of the
counts, the amounts and the frame itself. -/
inductive Shippable : SettleMsg → Prop where
  | claimAnnounce {topic : Topic} {claim : RewardClaim} (links : claim.links.length < 2 ^ 32)
      (amounts : ∀ link ∈ claim.links, link.amount < 2 ^ 128) :
      Shippable (.claimAnnounce topic claim.id claim.neuron claim)
  | selfAcc {topic : Topic} {miner : Particle} {acc : ClusterAcc}
      (sums : acc.sumM.length < 2 ^ 32) (samples : acc.seen.size < 2 ^ 32) :
      Shippable (.selfAcc topic miner acc)
  | receiptHash {topic : Topic} {hash : Particle} {epoch : UInt64} :
      Shippable (.receiptHash topic hash epoch)

theorem decode_header {ty : UInt8} {body : List UInt8} :
    decodeSettleMsg (header ty ++ body) =
      if ty = tyClaim then (decodeClaimAnnounce body).map Prod.fst
      else if ty = tySelfAcc then (decodeSelfAcc body).map Prod.fst
      else if ty = tyReceipt then (decodeReceiptHash body).map Prod.fst
      else none := by
  have magicBytes : magic = [70, 83, 69, 84] := by decide
  rw [decodeSettleMsg, header, magicBytes, if_neg (by simp), if_neg (by simp)]
  rfl

theorem decodeSettleMsg_encoded {msg : SettleMsg} (shippable : Shippable msg) :
    decodeSettleMsg (encodeSettleMsg msg) = some msg := by
  cases shippable with
  | @claimAnnounce topic claim links amounts =>
      have read : Reads decodeClaimAnnounce _ (.claimAnnounce topic claim.id claim.neuron claim) :=
        (read32_reads topic).bind ((read32_reads claim.id).bind
        ((read32_reads claim.neuron).bind ((decodeClaimBody_reads links amounts).last _)))
      simp only [encodeSettleMsg, List.append_assoc]
      rw [decode_header, if_pos rfl, read.all, Option.map_some]
  | @selfAcc topic miner acc sums samples =>
      have read : Reads decodeSelfAcc _ (.selfAcc topic miner acc) :=
        (read32_reads topic).bind ((read32_reads miner).bind
        ((decodeAccBody_reads sums samples).last _))
      simp only [encodeSettleMsg, List.append_assoc]
      rw [decode_header, if_neg (by decide), if_pos rfl, read.all, Option.map_some]
  | @receiptHash topic hash epoch =>
      have read : Reads decodeReceiptHash _ (.receiptHash topic hash epoch) :=
        (read32_reads topic).bind ((read32_reads hash).bind ((readU64_reads epoch).last _))
      simp only [encodeSettleMsg, List.append_assoc]
      rw [decode_header, if_neg (by decide), if_neg (by decide), if_pos rfl, read.all,
        Option.map_some]

theorem splitFrame_encoded {body : List UInt8} (fits : body.length < 2 ^ 32) (rest : List UInt8) :
    splitFrame (encodeFrame body ++ rest) = some (body, rest) := by
  have size : (u32Bytes body.length).length = 4 := leBytes_length 4 _
  have count : ofLeBytes (u32Bytes body.length) = body.length := ofLeBytes_leBytes fits
  have front : (u32Bytes body.length ++ (body ++ rest)).take 4 = u32Bytes body.length :=
    List.take_left' size
  have back : (u32Bytes body.length ++ (body ++ rest)).drop 4 = body ++ rest :=
    List.drop_left' size
  rw [splitFrame, encodeFrame, List.append_assoc, if_neg (by simp [size]), front, count,
    if_neg (by simp [size]), ← List.drop_drop, back, List.take_left, List.drop_left]

theorem splitFrame_some {buffer frame rest : List UInt8}
    (found : splitFrame buffer = some (frame, rest)) :
    frame.length < 2 ^ 32 ∧ buffer = encodeFrame frame ++ rest := by
  rw [splitFrame] at found
  split at found
  · cases found
  · rename_i long
    simp only at found
    split at found
    · cases found
    · rename_i whole
      cases found
      have front : (buffer.take 4).length = 4 := by
        rw [List.length_take]
        omega
      have bound : ofLeBytes (buffer.take 4) < 256 ^ 4 := by
        have bound := ofLeBytes_lt (buffer.take 4)
        rwa [front] at bound
      have body : ((buffer.drop 4).take (ofLeBytes (buffer.take 4))).length =
          ofLeBytes (buffer.take 4) := by
        rw [List.length_take, List.length_drop]
        omega
      have packed := leBytes_ofLeBytes (buffer.take 4) 0
      rw [front, List.replicate_zero, List.append_nil] at packed
      rw [encodeFrame, u32Bytes, body, packed, List.append_assoc, ← List.drop_drop,
        List.take_append_drop, List.take_append_drop]
      exact ⟨bound, rfl⟩

theorem splitFrame_cuts : Cuts splitFrame where
  shrinks := by
    intro buffer frame rest found
    have split := (splitFrame_some found).2
    rw [split, encodeFrame, u32Bytes, List.length_append, List.length_append, leBytes_length]
    omega
  stable := by
    intro buffer frame rest found more
    obtain ⟨fits, split⟩ := splitFrame_some found
    rw [split, List.append_assoc, splitFrame_encoded fits]

end Foculus.Gossip

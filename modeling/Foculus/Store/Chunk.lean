import Foculus.Crates.Hemera
import Foculus.Erasure.RoundTrip

namespace Foculus.Store

open Data Erasure

/-! # Shards as bytes (`src/store.rs`, and the same helpers in `src/node.rs` and `src/das.rs`) -/

def shardToBytes (shard : Shard) : List UInt8 :=
  shard.data.flatMap fun element => leBytes 8 element.asU64

/-- The elements in `chunks(8)`; a last chunk that is too short is dropped. -/
def wordElements : List UInt8 → List Goldilocks
  | b0 :: b1 :: b2 :: b3 :: b4 :: b5 :: b6 :: b7 :: rest =>
      Goldilocks.new (ofLeBytes [b0, b1, b2, b3, b4, b5, b6, b7]) :: wordElements rest
  | _ => []

def bytesToShard (index : Nat) (bytes : List UInt8) : Shard where
  index := index
  data := wordElements bytes

def verifyChunk (hemera : Hemera) (bytes : List UInt8) (expectedHashHex : String) : Bool :=
  hemera.toHex (hemera.hash bytes) == expectedHashHex

def digest (hemera : Hemera) (shard : Shard) : Particle := hemera.hash (shardToBytes shard)

/-- The name under which the chunk of a shard is stored. -/
def chunkName (hemera : Hemera) (shard : Shard) : String := hemera.toHex (digest hemera shard)

theorem wordElements_word {word : List UInt8} (width : word.length = 8) (rest : List UInt8) :
    wordElements (word ++ rest) = Goldilocks.new (ofLeBytes word) :: wordElements rest := by
  match word, width with
  | [b0, b1, b2, b3, b4, b5, b6, b7], _ => rfl

theorem wordElements_flatMap (elements : List Goldilocks) :
    wordElements (elements.flatMap fun element => leBytes 8 element.asU64) = elements := by
  induction elements with
  | nil => rfl
  | cons element rest ih =>
      have bound : element.asU64 < 256 ^ 8 :=
        (ZMod.val_lt element).trans (by norm_num [P])
      rw [List.flatMap_cons, wordElements_word (leBytes_length 8 _), ih, ofLeBytes_leBytes bound]
      exact congrArg (· :: rest) (ZMod.natCast_zmod_val element)

/-- A shard that is read back under its own index is the shard that was written. -/
@[simp] theorem bytesToShard_shardToBytes (shard : Shard) :
    bytesToShard shard.index (shardToBytes shard) = shard := by
  rw [bytesToShard, shardToBytes, wordElements_flatMap]

end Foculus.Store

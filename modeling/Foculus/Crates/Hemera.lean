import Foculus.Data.Bytes
import Foculus.Data.Records
import Mathlib.Data.Set.Function
import Mathlib.Data.UInt

namespace Foculus

/-! # The Hemera hash

The crate is not part of the repository.  A digest is 32 bytes and `toHex` is
its printed form.  No function from byte strings to 32 bytes is injective, so
"the hash is injective" is always said of the inputs at hand:
`CollisionFree inputs` states that no two different members of `inputs` share a
digest.
-/

abbrev Particle := Vector UInt8 32

-- The maps and lists of particles all refer to these, under one name.

instance Particle.transOrd : Std.TransOrd Particle := inferInstance

instance Particle.lawfulBEq : LawfulBEq Particle := inferInstance

instance lanes_neZero : NeZero 32 := inferInstance

def Particle.zero : Particle := Vector.replicate 32 0

def Particle.padded (bytes : List UInt8) : Particle := Vector.ofFn fun lane => bytes.getD lane 0

structure Hemera where
  hash : List UInt8 → Particle
  toHex : Particle → String

def Hemera.CollisionFree (hemera : Hemera) (inputs : Set (List UInt8)) : Prop :=
  Set.InjOn hemera.hash inputs

theorem Hemera.CollisionFree.pair {hemera : Hemera} {left right : List UInt8}
    (free : hemera.CollisionFree {left, right}) (same : hemera.hash left = hemera.hash right) :
    left = right :=
  free (by simp) (by simp) same

theorem Hemera.collisionFree_of_apart {hemera : Hemera} {left right : List UInt8}
    (apart : hemera.hash left ≠ hemera.hash right) : hemera.CollisionFree {left, right} :=
  Set.injOn_pair.mpr fun same => absurd same apart

theorem Hemera.collisionFree_of_eq {hemera : Hemera} {left right : List UInt8}
    (same : left = right) : hemera.CollisionFree {left, right} :=
  Set.injOn_pair.mpr fun _ => same

/-- `cyber_hemera::tree`, and how a digest is printed with `{:?}`. -/
structure HemeraTree where
  rootHash : List UInt8 → Particle
  debug : Particle → String

def HemeraTree.CollisionFree (tree : HemeraTree) (inputs : Set (List UInt8)) : Prop :=
  Set.InjOn tree.rootHash inputs

def hexText (digest : Particle) : String :=
  String.ofList (digest.toList.flatMap fun byte =>
    [Nat.digitChar (byte.toNat / 16), Nat.digitChar (byte.toNat % 16)])

theorem hexText_injective : Function.Injective hexText := by
  have digits : ∀ left < 16, ∀ right < 16,
      Nat.digitChar left = Nat.digitChar right → left = right := by decide
  intro left right same
  apply Vector.toList_inj.mp
  have chars := String.ofList_injective same
  generalize left.toList = leftBytes at chars ⊢
  generalize right.toList = rightBytes at chars ⊢
  induction leftBytes generalizing rightBytes with
  | nil =>
      cases rightBytes with
      | nil => rfl
      | cons byte rest => simp at chars
  | cons byte rest ih =>
      cases rightBytes with
      | nil => simp at chars
      | cons other others =>
          simp only [List.flatMap_cons, List.cons_append, List.nil_append, List.cons.injEq] at chars
          obtain ⟨high, low, tails⟩ := chars
          have byteBound := byte.toNat_lt
          have otherBound := other.toNat_lt
          have highs := digits _ (by omega) _ (by omega) high
          have lows := digits _ (by omega) _ (by omega) low
          have heads : byte = other := UInt8.toNat_inj.mp (by omega)
          rw [heads, ih others tails]

theorem hexText_length (digest : Particle) : (hexText digest).length = 64 := by
  rw [hexText, String.length_ofList, List.length_flatMap]
  simp

theorem mem_hexText {digest : Particle} {char : Char} (member : char ∈ (hexText digest).toList) :
    ∃ digit < 16, char = Nat.digitChar digit := by
  rw [hexText, String.toList_ofList] at member
  obtain ⟨byte, -, member⟩ := List.mem_flatMap.mp member
  have bound := byte.toNat_lt
  rcases List.mem_cons.mp member with rfl | member
  · exact ⟨_, by omega, rfl⟩
  · exact ⟨_, by omega, List.mem_singleton.mp member⟩

/-- A stand-in that lets the model be run: the digest is the end of the input,
last byte first. -/
def Hemera.truncating : Hemera where
  hash bytes := Particle.padded bytes.reverse
  toHex := hexText

/-- On inputs of one length that fit in a digest nothing is cut off. -/
theorem Hemera.truncating_collisionFree {size : Nat} (fits : size ≤ 32) :
    Hemera.truncating.CollisionFree {bytes | bytes.length = size} := by
  intro left leftLength right rightLength same
  apply List.reverse_injective
  apply List.ext_getElem
  · rw [List.length_reverse, List.length_reverse, leftLength, rightLength]
  · intro lane here there
    have inside : lane < 32 := by
      rw [List.length_reverse, leftLength] at here
      omega
    have lanes := congrArg (fun digest : Particle => digest[lane]) same
    simpa only [Hemera.truncating, Particle.padded, Vector.getElem_ofFn,
      List.getD_eq_getElem _ _ here, List.getD_eq_getElem _ _ there] using lanes

def HemeraTree.truncating : HemeraTree where
  rootHash := Hemera.truncating.hash
  debug := hexText

def u64Bytes (value : UInt64) : List UInt8 := Data.leBytes 8 value.toNat

@[simp] theorem u64Bytes_length (value : UInt64) : (u64Bytes value).length = 8 :=
  Data.leBytes_length 8 value.toNat

theorem u64Bytes_inj {left right : UInt64} (same : u64Bytes left = u64Bytes right) :
    left = right :=
  UInt64.toNat_inj.mp ((Data.leBytes_inj left.toNat_lt right.toNat_lt).mp same)

theorem u64Bytes_fixedWidth : Data.FixedWidth u64Bytes 8 where
  length_eq := u64Bytes_length
  injective _ _ := u64Bytes_inj
  covers bytes length := by
    have bound : Data.ofLeBytes bytes < 2 ^ 64 := by
      have bound := Data.ofLeBytes_lt bytes
      rwa [length] at bound
    refine ⟨UInt64.ofNat (Data.ofLeBytes bytes), ?_⟩
    have packed := Data.leBytes_ofLeBytes bytes 0
    rw [length, Nat.add_zero, List.replicate_zero, List.append_nil] at packed
    rw [u64Bytes, UInt64.toNat_ofNat_of_lt' bound, packed]

theorem Particle.toList_fixedWidth : Data.FixedWidth (Vector.toList : Particle → List UInt8) 32 where
  length_eq particle := particle.length_toList
  injective _ _ same := Vector.toList_inj.mp same
  covers bytes length := ⟨⟨bytes.toArray, by simpa using length⟩, rfl⟩

def strBytes (text : String) : List UInt8 := text.toUTF8.data.toList

theorem strBytes_inj {left right : String} (same : strBytes left = strBytes right) :
    left = right :=
  String.toByteArray_inj.mp (ByteArray.ext (Array.toList_inj.mp same))

theorem utf8Encode_ascii_size {chars : List Char} (ascii : ∀ char ∈ chars, char.utf8Size = 1) :
    chars.utf8Encode.size = chars.length := by
  induction chars with
  | nil => rfl
  | cons char rest ih =>
      rw [List.utf8Encode_cons, ByteArray.size_append, List.utf8Encode_singleton,
        List.size_toByteArray, String.length_utf8EncodeChar, ascii char (.head _),
        ih fun other member => ascii other (.tail _ member), List.length_cons, Nat.add_comm]

/-- A digest is printed in 64 bytes. -/
theorem strBytes_hexText (digest : Particle) : (strBytes (hexText digest)).length = 64 := by
  have digits : ∀ digit < 16, (Nat.digitChar digit).utf8Size = 1 := by decide
  have ascii : ∀ char ∈ (hexText digest).toList, char.utf8Size = 1 := by
    intro char member
    obtain ⟨digit, bound, rfl⟩ := mem_hexText member
    exact digits digit bound
  have bytes : (strBytes (hexText digest)).length = (hexText digest).toList.utf8Encode.size := by
    rw [← String.toByteArray_ofList, String.ofList_toList]
    rfl
  rw [bytes, utf8Encode_ascii_size ascii, String.length_toList, hexText_length]

end Foculus

import Foculus.Data.Bytes
import Foculus.Data.Records

namespace Foculus.Data

/-! Readers that take values off the front of a byte buffer.

The state of a reader is what is left of the buffer.  `Reads reader bytes value`
says that the reader takes exactly `bytes` for `value`, whatever follows them;
an encoder is inverted field by field, by one `bind` for each.
-/

abbrev Reader := StateT (List UInt8) Option

namespace Reader

def take (count : Nat) : Reader (List UInt8) := fun buffer =>
  if buffer.length < count then none else some (buffer.take count, buffer.drop count)

/-- A trailing section: `absent` where nothing is left to read. -/
def optional (absent : α) (reader : Reader α) : Reader α := fun buffer =>
  if buffer.isEmpty then some (absent, buffer) else reader buffer

def repeated (reader : Reader α) : Nat → Reader (List α)
  | 0 => pure []
  | count + 1 => do
      let value ← reader
      let values ← repeated reader count
      return value :: values

def number (width : Nat) : Reader Nat := do
  let bytes ← take width
  return ofLeBytes bytes

def u64 : Reader UInt64 := do
  let value ← number 8
  return UInt64.ofNat value

def u8 : Reader UInt8 := do
  let value ← number 1
  return UInt8.ofNat value

def array (count : Nat) : Reader (Vector UInt8 count) := do
  let bytes ← take count
  if length : bytes.length = count then return ⟨bytes.toArray, length⟩ else failure

end Reader

open Reader

def Reads (reader : Reader α) (bytes : List UInt8) (value : α) : Prop :=
  ∀ rest, reader (bytes ++ rest) = some (value, rest)

namespace Reads

variable {reader : Reader α} {front back bytes : List UInt8} {value : α}

protected theorem pure (value : α) : Reads (pure value) [] value := fun _ => rfl

protected theorem bind {next : α → Reader β} {result : β} (first : Reads reader front value)
    (second : Reads (next value) back result) : Reads (reader >>= next) (front ++ back) result := by
  intro rest
  have head := first (back ++ rest)
  rw [← List.append_assoc] at head
  change (reader (front ++ back ++ rest)).bind (fun (value, rest) => next value rest) = _
  rw [head]
  exact second rest

/-- The last field of a record. -/
theorem last (result : α → β) (first : Reads reader bytes value) :
    Reads (do return result (← reader)) bytes (result value) := by
  have ended : Reads (pure (result value)) [] (result value) := .pure _
  rw [← List.append_nil bytes]
  exact first.bind ended

theorem all (reads : Reads reader bytes value) : reader bytes = some (value, []) := by
  have whole := reads []
  rwa [List.append_nil] at whole

theorem take (bytes : List UInt8) : Reads (Reader.take bytes.length) bytes bytes := by
  intro rest
  rw [Reader.take, if_neg (by simp), List.take_left, List.drop_left]

theorem take_of_length {count : Nat} (length : bytes.length = count) :
    Reads (Reader.take count) bytes bytes := length ▸ Reads.take bytes

theorem number {width value : Nat} (bound : value < 256 ^ width) :
    Reads (Reader.number width) (leBytes width value) value := by
  have decoded := (Reads.take_of_length (leBytes_length width value)).last ofLeBytes
  rwa [ofLeBytes_leBytes bound] at decoded

theorem u64 (value : UInt64) : Reads Reader.u64 (leBytes 8 value.toNat) value := by
  have number : Reads (Reader.number 8) _ _ := .number value.toNat_lt
  have read := number.last UInt64.ofNat
  rwa [UInt64.ofNat_toNat] at read

theorem u8 (value : UInt8) : Reads Reader.u8 [value] value := by
  have number : Reads (Reader.number 1) _ _ := .number value.toNat_lt
  have read := number.last UInt8.ofNat
  rwa [leBytes, leBytes, UInt8.ofNat_toNat] at read

theorem array {count : Nat} (value : Vector UInt8 count) :
    Reads (Reader.array count) value.toList value := by
  have length := value.length_toList
  rw [← List.append_nil value.toList]
  refine (Reads.take_of_length length).bind ?_
  rw [dif_pos length]
  exact .pure value

theorem optional (absent : α) (reads : Reads reader bytes value) (written : bytes ≠ []) :
    Reads (Reader.optional absent reader) bytes value := by
  intro rest
  rw [Reader.optional, if_neg (by simp [written]), reads rest]

theorem repeated {encode : α → List UInt8} {values : List α}
    (each : ∀ value ∈ values, Reads reader (encode value) value) :
    Reads (Reader.repeated reader values.length) (values.flatMap encode) values := by
  induction values with
  | nil => exact .pure []
  | cons value rest ih =>
      have head := each value List.mem_cons_self
      have tail := ih fun other member => each other (List.mem_cons_of_mem value member)
      exact head.bind (tail.last _)

end Reads

end Foculus.Data

import Foculus.Data.Action
import Foculus.Data.Checked
import Foculus.Data.Reader

namespace Foculus.Data

/-! Cursors over a buffer.

A cursor is a call on the offset into a fixed buffer.  It returns `.err ()` where it
has nothing to read; a slice past the end and an offset that no `usize` holds abort.
`Follows` compares it to a reader, from the offsets with `ahead` bytes behind them:
calls that slice without asking are safe only where the bytes are known to be there.
-/

abbrev Cursor := Action Nat Unit

namespace Cursor

def usize (value : Nat) : Cursor Nat := Action.lift (.expect (fit 64 value))

/-- `bytes[start..stop]`. -/
def slice (bytes : List UInt8) (start stop : Nat) : Cursor (List UInt8) :=
  Action.lift <| .expect <|
    if start ≤ stop ∧ stop ≤ bytes.length then some ((bytes.drop start).take (stop - start))
    else none

/-- `bytes[off..off + width].try_into().ok()?`, and `off += width`. -/
def next (bytes : List UInt8) (width : Nat) : Cursor (Vector UInt8 width) := do
  let off ← Action.get
  let stop ← usize (off + width)
  let part ← slice bytes off stop
  if length : part.length = width then do
    Action.modify fun _ => stop
    return ⟨part.toArray, length⟩
  else Action.fail ()

/-- `if bytes.len() < off + width { return None; }` -/
def need (bytes : List UInt8) (width : Nat) : Cursor Unit := do
  let off ← Action.get
  let stop ← usize (off + width)
  if bytes.length < stop then Action.fail () else return ()

/-- `from_le_bytes` of the next bytes. -/
def number (bytes : List UInt8) (width : Nat) : Cursor Nat := do
  let word ← next bytes width
  return ofLeBytes word.toList

/-- `if off >= bytes.len() { return None; }`, then `bytes[off]`, and `off += 1`. -/
def byte (bytes : List UInt8) : Cursor UInt8 := do
  let off ← Action.get
  if bytes.length ≤ off then Action.fail ()
  else do
    let value ← Action.lift (.expect bytes[off]?)
    let after ← usize (off + 1)
    Action.modify fun _ => after
    return value

def repeated (call : Cursor α) : Nat → Cursor (List α)
  | 0 => pure []
  | count + 1 => do
      let value ← call
      let values ← repeated call count
      return value :: values

theorem usize_apply {value : Nat} (off : Nat) (bound : value < 2 ^ 64) :
    usize value off = (.ok value, off) := by
  rw [usize, fit_eq bound]
  rfl

theorem slice_apply {bytes : List UInt8} {start stop : Nat} (off : Nat) (ordered : start ≤ stop)
    (inside : stop ≤ bytes.length) :
    slice bytes start stop off = (.ok ((bytes.drop start).take (stop - start)), off) := by
  rw [slice, if_pos ⟨ordered, inside⟩]
  rfl

end Cursor

namespace Reader

/-- The reader takes `width` bytes whatever they are, and fails if there are fewer. -/
structure Fixed (reader : Reader α) (width : Nat) : Prop where
  fails : ∀ {buffer}, reader buffer = none → buffer.length < width
  takes : ∀ {buffer rest value}, reader buffer = some (value, rest) →
    buffer.length = width + rest.length

/-- The reader fails on fewer than `count` bytes. -/
def Needs (reader : Reader α) (count : Nat) : Prop :=
  ∀ buffer : List UInt8, buffer.length < count → reader buffer = none

/-- The values that can be read. -/
def Yields (reader : Reader α) (value : α) : Prop :=
  ∃ buffer rest, reader buffer = some (value, rest)

variable {reader : Reader α} {width : Nat}

theorem Fixed.pure (value : α) : Fixed (Pure.pure value) 0 where
  fails failed := by cases failed
  takes read := by
    cases read
    exact (Nat.zero_add _).symm

theorem Fixed.bind {next : α → Reader β} {more : Nat} (first : Fixed reader width)
    (second : ∀ value, Fixed (next value) more) : Fixed (reader >>= next) (width + more) where
  fails {buffer} failed := by
    change (reader buffer).bind _ = none at failed
    cases read : reader buffer with
    | none => exact Nat.lt_add_right more (first.fails read)
    | some result =>
        rw [read] at failed
        rw [first.takes read]
        exact Nat.add_lt_add_left ((second result.1).fails failed) width
  takes {buffer rest value} read := by
    change (reader buffer).bind _ = _ at read
    obtain ⟨⟨head, between⟩, read, continued⟩ := Option.bind_eq_some_iff.mp read
    rw [first.takes read, (second head).takes continued, Nat.add_assoc]

theorem Fixed.last (result : α → β) (first : Fixed reader width) :
    Fixed (do return result (← reader)) width :=
  first.bind fun _ => .pure _

theorem Fixed.take (width : Nat) : Fixed (Reader.take width) width where
  fails {buffer} failed := by
    rw [Reader.take] at failed
    split_ifs at failed with short
    exact short
  takes {buffer rest value} read := by
    rw [Reader.take] at read
    split_ifs at read with short
    cases read
    rw [List.length_drop]
    omega

theorem Fixed.number (width : Nat) : Fixed (Reader.number width) width :=
  (Fixed.take width).last ofLeBytes

theorem Fixed.u64 : Fixed Reader.u64 8 := (Fixed.number 8).last UInt64.ofNat

theorem array_apply (width : Nat) (buffer : List UInt8) :
    Reader.array width buffer =
      if long : width ≤ buffer.length then
        some (⟨(buffer.take width).toArray, List.length_take_of_le long⟩, buffer.drop width)
      else none := by
  change (Reader.take width buffer).bind _ = _
  rw [Reader.take]
  split_ifs with short long long
  · omega
  · rfl
  · rw [Option.bind_some]
    dsimp only
    rw [dif_pos (List.length_take_of_le long)]
    rfl
  · omega

theorem Fixed.array (width : Nat) : Fixed (Reader.array width) width where
  fails {buffer} failed := by
    rw [array_apply] at failed
    split_ifs at failed with long
    exact Nat.lt_of_not_le long
  takes {buffer rest value} read := by
    rw [array_apply] at read
    split_ifs at read with long
    cases read
    rw [List.length_drop]
    omega

theorem Fixed.repeated (each : Fixed reader width) (count : Nat) :
    Fixed (Reader.repeated reader count) (count * width) := by
  induction count with
  | zero =>
      rw [Nat.zero_mul]
      exact .pure []
  | succ count ih =>
      rw [Nat.succ_mul, Nat.add_comm (count * width)]
      exact each.bind fun value => ih.last (value :: ·)

theorem Fixed.needs (fixed : Fixed reader width) : Needs reader width := by
  intro buffer short
  cases read : reader buffer with
  | none => rfl
  | some result =>
      have taken := fixed.takes read
      omega

theorem Fixed.needs_bind {next : α → Reader β} {count : Nat} (first : Fixed reader width)
    (second : ∀ value, Needs (next value) count) : Needs (reader >>= next) (width + count) := by
  intro buffer short
  change (reader buffer).bind _ = none
  cases read : reader buffer with
  | none => rfl
  | some result =>
      have taken := first.takes read
      exact second result.1 result.2 (by omega)

theorem Needs.zero (reader : Reader α) : Needs reader 0 := fun _ short => absurd short (Nat.not_lt_zero _)

theorem number_eq_array (width : Nat) :
    Reader.number width = do return ofLeBytes (← Reader.array width).toList := by
  funext buffer
  change (Reader.take width buffer).bind _ = (Reader.array width buffer).bind _
  rw [array_apply, Reader.take]
  split_ifs with short long long
  · omega
  · rfl
  · rfl
  · omega

theorem number_lt {value : Nat} (yields : Yields (Reader.number width) value) :
    value < 256 ^ width := by
  obtain ⟨buffer, rest, read⟩ := yields
  rw [number_eq_array] at read
  obtain ⟨⟨word, _⟩, _, decoded⟩ := Option.bind_eq_some_iff.mp read
  cases decoded
  have bound := ofLeBytes_lt word.toList
  rwa [word.length_toList] at bound

end Reader

/-- The call does to the offset what the reader does to the bytes behind it. -/
def Agrees (bytes : List UInt8) (called : Outcome Unit α × Nat) : Option (α × List UInt8) → Prop
  | some (value, rest) => ∃ off ≤ bytes.length, called = (.ok value, off) ∧ bytes.drop off = rest
  | none => called.1 = .err ()

def Follows (bytes : List UInt8) (ahead : Nat) (call : Cursor α) (reader : Reader α) : Prop :=
  ∀ off, off + ahead ≤ bytes.length → Agrees bytes (call off) (reader (bytes.drop off))

namespace Follows

open Cursor

variable {bytes : List UInt8} {call : Cursor α} {reader : Reader α} {ahead width : Nat}

protected theorem pure (bytes : List UInt8) (value : α) :
    Follows bytes 0 (pure value) (pure value) :=
  fun off within => ⟨off, within, rfl, rfl⟩

theorem mono (follows : Follows bytes width call reader) (enough : width ≤ ahead) :
    Follows bytes ahead call reader := fun off within => follows off (by omega)

protected theorem bind {continued : α → Cursor β} {next : α → Reader β}
    (first : Follows bytes ahead call reader)
    (second : ∀ value, reader.Yields value → Follows bytes 0 (continued value) (next value)) :
    Follows bytes ahead (call >>= continued) (reader >>= next) := by
  intro off within
  have head := first off within
  change Agrees bytes _ ((reader (bytes.drop off)).bind _)
  cases read : reader (bytes.drop off) with
  | none =>
      rw [read] at head
      have refused : call off = (.err (), (call off).2) := Prod.ext head rfl
      rw [Action.bind_err refused]
      rfl
  | some result =>
      obtain ⟨value, rest⟩ := result
      rw [read] at head
      obtain ⟨after, inside, called, rfl⟩ := head
      rw [Action.bind_ok called]
      exact second value ⟨_, _, read⟩ after inside

/-- Behind a call that takes `width` bytes the others of the known bytes are left. -/
theorem bind_fixed {continued : α → Cursor β} {next : α → Reader β}
    (first : Follows bytes width call reader) (fixed : reader.Fixed width)
    (second : ∀ value, reader.Yields value → Follows bytes ahead (continued value) (next value)) :
    Follows bytes (width + ahead) (call >>= continued) (reader >>= next) := by
  intro off within
  have head := first off (by omega)
  change Agrees bytes _ ((reader (bytes.drop off)).bind _)
  cases read : reader (bytes.drop off) with
  | none =>
      have short := fixed.fails read
      rw [List.length_drop] at short
      omega
  | some result =>
      obtain ⟨value, rest⟩ := result
      have taken := fixed.takes read
      rw [read] at head
      obtain ⟨after, inside, called, rfl⟩ := head
      rw [List.length_drop, List.length_drop] at taken
      rw [Action.bind_ok called]
      exact second value ⟨_, _, read⟩ after (by omega)

theorem repeated_fixed (each : Follows bytes width call reader) (fixed : reader.Fixed width)
    (count : Nat) :
    Follows bytes (count * width) (Cursor.repeated call count) (Reader.repeated reader count) := by
  induction count with
  | zero => exact (Follows.pure bytes []).mono (Nat.zero_le _)
  | succ count ih =>
      rw [Nat.succ_mul, Nat.add_comm (count * width)]
      exact each.bind_fixed fixed fun value _ => ih.bind fun values _ => .pure bytes _

theorem repeated (each : Follows bytes 0 call reader) (count : Nat) :
    Follows bytes 0 (Cursor.repeated call count) (Reader.repeated reader count) := by
  induction count with
  | zero => exact .pure bytes []
  | succ count ih => exact each.bind fun value _ => ih.bind fun values _ => .pure bytes _

section Fields

variable (slice : bytes.length < 2 ^ 63)
include slice

theorem next (width : Nat) : Follows bytes width (Cursor.next bytes width) (Reader.array width) := by
  intro off within
  have held : width ≤ (bytes.drop off).length := by
    rw [List.length_drop]
    omega
  rw [Reader.array_apply, dif_pos held]
  refine ⟨off + width, within, ?_, (List.drop_drop ..).symm⟩
  have part : ((bytes.drop off).take (off + width - off)).length = width := by
    rw [Nat.add_sub_cancel_left, List.length_take_of_le held]
  rw [Cursor.next, Action.get_bind, Action.bind_ok (usize_apply off (by omega)),
    Action.bind_ok (slice_apply off (Nat.le_add_right ..) within), dif_pos part]
  simp only [Nat.add_sub_cancel_left]
  rfl

theorem number (width : Nat) :
    Follows bytes width (Cursor.number bytes width) (Reader.number width) := by
  rw [Reader.number_eq_array]
  exact (next slice width).bind fun word _ => .pure bytes _

theorem byte : Follows bytes 0 (Cursor.byte bytes) Reader.u8 := by
  intro off within
  rw [Cursor.byte, Action.get_bind]
  by_cases ended : bytes.length ≤ off
  · rw [if_pos ended, List.drop_eq_nil_of_le ended]
    rfl
  · have inside : off < bytes.length := Nat.lt_of_not_le ended
    rw [if_neg ended, List.getElem?_eq_getElem inside, List.drop_eq_getElem_cons inside]
    have read := Reads.u8 bytes[off] (bytes.drop (off + 1))
    rw [List.singleton_append] at read
    rw [read]
    refine ⟨off + 1, inside, ?_, rfl⟩
    rw [Outcome.expect_some, Action.bind_ok (Action.lift_apply _ off),
      Action.bind_ok (usize_apply off (by omega))]
    rfl

/-- Behind a check for them, `count` bytes are known to be there. -/
theorem need {count : Nat} (small : count < 2 ^ 63) (needs : reader.Needs count)
    (follows : Follows bytes count call reader) :
    Follows bytes 0 (Cursor.need bytes count >>= fun _ => call) reader := by
  intro off within
  have bounded : Cursor.usize (off + count) off = (.ok (off + count), off) :=
    usize_apply off (by omega)
  by_cases short : bytes.length < off + count
  · have refused : Cursor.need bytes count off = (.err (), off) := by
      rw [Cursor.need, Action.get_bind, Action.bind_ok bounded, if_pos short]
      rfl
    rw [needs _ (by rw [List.length_drop]; omega), Action.bind_err refused]
    rfl
  · have passed : Cursor.need bytes count off = (.ok (), off) := by
      rw [Cursor.need, Action.get_bind, Action.bind_ok bounded, if_neg short]
      rfl
    rw [Action.bind_ok passed]
    exact follows off (by omega)

end Fields

end Follows

end Foculus.Data

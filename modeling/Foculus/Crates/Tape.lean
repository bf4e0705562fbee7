import Foculus.Data.Reader

namespace Foculus

open Data

/-! # The tape crate

The crate is not part of the repository.  A chunk is written as a frame, and a
reader that was fed bytes hands out the chunks in them.
-/

structure Tape.Chunk where
  sigil : UInt8
  render : UInt8
  payload : List UInt8

inductive Tape.ReadResult where
  | chunk (chunk : Chunk)
  | pending
  | eof

structure Tape where
  zap : UInt8
  ket : UInt8
  encode : Tape.Chunk → List UInt8
  Reader : Type
  new : Reader
  feed : Reader → List UInt8 → Reader
  nextChunk : Reader → Tape.ReadResult × Reader

namespace Tape

/-- The reader hands out these chunks, one a call, and then stops. -/
inductive Yields (tape : Tape) : tape.Reader → List Chunk → Prop where
  | stop {reader : tape.Reader}
      (stopped : ∀ chunk, (tape.nextChunk reader).1 ≠ .chunk chunk) : Yields tape reader []
  | next {reader after : tape.Reader} {read chunk : Chunk} {chunks : List Chunk}
      (called : tape.nextChunk reader = (.chunk read, after))
      (sigil : read.sigil = chunk.sigil) (payload : read.payload = chunk.payload)
      (rest : Yields tape after chunks) : Yields tape reader (chunk :: chunks)

structure Lawful (tape : Tape) : Prop where
  sigils : tape.zap ≠ tape.ket
  yields : ∀ chunks : List Chunk,
    tape.Yields (tape.feed tape.new (chunks.flatMap tape.encode)) chunks

/-! A stand-in that lets the model be run: the marker, the sigil and the render
byte, the length of the payload in groups of seven bits, the payload. -/

def varint : (fuel value : Nat) → List UInt8
  | 0, value => [UInt8.ofNat value]
  | fuel + 1, value =>
      if value < 128 then [UInt8.ofNat value]
      else UInt8.ofNat (value % 128 + 128) :: varint fuel (value / 128)

def readVarint : (fuel : Nat) → Data.Reader Nat
  | 0 => failure
  | fuel + 1 => do
      let byte ← Data.Reader.u8
      if byte.toNat < 128 then return byte.toNat
      else
        let high ← readVarint fuel
        return byte.toNat - 128 + 128 * high

private theorem ends {more value : Nat} (low : value < 128) :
    Reads (readVarint (more + 1)) [UInt8.ofNat value] value := by
  have byte : (UInt8.ofNat value).toNat = value := by
    rw [UInt8.toNat_ofNat']
    omega
  rw [← List.append_nil [_]]
  refine (Reads.u8 _).bind ?_
  rw [if_pos (by omega), byte]
  exact .pure value

theorem varint_reads {fuel more value : Nat} (enough : value < 128 ^ (fuel + 1))
    (longer : (varint fuel value).length ≤ more) :
    Reads (readVarint more) (varint fuel value) value := by
  induction fuel generalizing more value with
  | zero =>
      obtain ⟨more, rfl⟩ : ∃ less, more = less + 1 := ⟨more - 1, by simp [varint] at longer; omega⟩
      exact ends (by simpa using enough)
  | succ fuel ih =>
      by_cases low : value < 128
      · rw [varint, if_pos low] at longer ⊢
        obtain ⟨more, rfl⟩ : ∃ less, more = less + 1 := ⟨more - 1, by simp at longer; omega⟩
        exact ends low
      · rw [varint, if_neg low, List.length_cons] at longer
        obtain ⟨more, rfl⟩ : ∃ less, more = less + 1 := ⟨more - 1, by omega⟩
        have high : value / 128 < 128 ^ (fuel + 1) := by
          rw [Nat.pow_succ] at enough
          omega
        have tail : Reads (readVarint more) _ _ := ih high (by omega)
        have byte : (UInt8.ofNat (value % 128 + 128)).toNat = value % 128 + 128 := by
          rw [UInt8.toNat_ofNat']
          omega
        rw [varint, if_neg low, ← List.singleton_append]
        refine (Reads.u8 _).bind ?_
        rw [if_neg (by omega)]
        have read := tail.last fun high => value % 128 + 128 - 128 + 128 * high
        rw [show value % 128 + 128 - 128 + 128 * (value / 128) = value by omega] at read
        rwa [byte]

def readChunk (fuel : Nat) : Data.Reader Chunk := do
  let marker ← Data.Reader.u8
  if marker = 0x1F then
    let sigil ← Data.Reader.u8
    let render ← Data.Reader.u8
    let length ← readVarint fuel
    let payload ← Data.Reader.take length
    return { sigil, render, payload }
  else failure

def plain : Tape where
  zap := 0x21
  ket := 0x5E
  encode chunk := [0x1F] ++ ([chunk.sigil] ++ ([chunk.render] ++
    (varint chunk.payload.length chunk.payload.length ++ chunk.payload)))
  Reader := List UInt8
  new := []
  feed buffer bytes := buffer ++ bytes
  nextChunk buffer :=
    match readChunk buffer.length buffer with
    | some (chunk, rest) => (.chunk chunk, rest)
    | none => (if buffer.isEmpty then .eof else .pending, buffer)

theorem readChunk_reads {chunk : Chunk} {fuel : Nat}
    (enough : (plain.encode chunk).length ≤ fuel) :
    Reads (readChunk fuel) (plain.encode chunk) chunk := by
  have length : (varint chunk.payload.length chunk.payload.length).length ≤ fuel := by
    simp only [plain, List.length_append] at enough
    omega
  have bound : chunk.payload.length < 128 ^ (chunk.payload.length + 1) :=
    Nat.lt_of_lt_of_le (Nat.lt_pow_self (by decide)) (Nat.pow_le_pow_right (by decide) (by omega))
  refine (Reads.u8 0x1F).bind ?_
  rw [if_pos rfl]
  exact (Reads.u8 chunk.sigil).bind ((Reads.u8 chunk.render).bind
    ((varint_reads bound length).bind ((Reads.take chunk.payload).last _)))

theorem plain_lawful : plain.Lawful where
  sigils := by decide
  yields chunks := by
    change plain.Yields (chunks.flatMap plain.encode) chunks
    induction chunks with
    | nil =>
        have ended : plain.nextChunk [] = (.eof, []) := rfl
        exact .stop fun chunk => by simp [ended]
    | cons chunk rest ih =>
        have enough : (plain.encode chunk).length ≤
            (plain.encode chunk ++ rest.flatMap plain.encode).length := by
          rw [List.length_append]
          exact Nat.le_add_right _ _
        have called : plain.nextChunk (plain.encode chunk ++ rest.flatMap plain.encode) =
            (.chunk chunk, rest.flatMap plain.encode) := by
          change (match readChunk _ _ with
            | some (chunk, rest) => (ReadResult.chunk chunk, rest)
            | none => _) = _
          rw [readChunk_reads enough]
        exact .next called rfl rfl ih

end Tape

end Foculus

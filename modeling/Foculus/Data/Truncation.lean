import Foculus.Data.Reader

namespace Foculus.Data

/-! Truncated buffers.

A reader is stable when bytes that come later do not change what it read.  What a
stable reader takes for a value it takes as a whole: of any proper prefix it reads
nothing.  An optional section is not stable, since it may also be missing.
-/

structure Stable (reader : Reader α) : Prop where
  append : ∀ {buffer rest : List UInt8} {value : α}, reader buffer = some (value, rest) →
    ∀ more, reader (buffer ++ more) = some (value, rest ++ more)

namespace Stable

open Reader

protected theorem pure (value : α) : Stable (pure value) where
  append read more := by
    cases read
    rfl

protected theorem failure : Stable (failure : Reader α) where
  append read := by cases read

protected theorem bind {reader : Reader α} {next : α → Reader β} (first : Stable reader)
    (second : ∀ value, Stable (next value)) : Stable (reader >>= next) where
  append {buffer rest result} read more := by
    change (reader buffer).bind _ = _ at read
    obtain ⟨⟨value, between⟩, head, tail⟩ := Option.bind_eq_some_iff.mp read
    change (reader (buffer ++ more)).bind _ = _
    rw [first.append head more]
    exact (second value).append tail more

theorem last {reader : Reader α} (result : α → β) (first : Stable reader) :
    Stable (do return result (← reader)) :=
  first.bind fun _ => .pure _

theorem take (count : Nat) : Stable (Reader.take count) where
  append {buffer rest value} read more := by
    unfold Reader.take at read ⊢
    split_ifs at read with short
    cases read
    have held : count ≤ buffer.length := Nat.le_of_not_lt short
    rw [if_neg (by rw [List.length_append]; omega), List.take_append_of_le_length held,
      List.drop_append_of_le_length held]

theorem number (width : Nat) : Stable (Reader.number width) := (take width).last ofLeBytes

theorem u64 : Stable Reader.u64 := (number 8).last UInt64.ofNat

theorem u8 : Stable Reader.u8 := (number 1).last UInt8.ofNat

theorem array (count : Nat) : Stable (Reader.array count) := by
  refine (take count).bind fun bytes => ?_
  split
  · exact .pure _
  · exact .failure

theorem repeated {reader : Reader α} (each : Stable reader) (count : Nat) :
    Stable (Reader.repeated reader count) := by
  induction count with
  | zero => exact .pure []
  | succ count ih => exact each.bind fun _ => ih.last _

end Stable

/-- A proper prefix of a concatenation ends within the first part, or within the second
one after all of the first. -/
theorem properPrefix_append {cut front back : List α} (started : cut <+: front ++ back)
    (proper : cut ≠ front ++ back) :
    (cut <+: front ∧ cut ≠ front) ∨ ∃ rest, cut = front ++ rest ∧ rest <+: back ∧ rest ≠ back := by
  rcases Nat.lt_or_ge cut.length front.length with shorter | longer
  · refine .inl ⟨List.prefix_of_prefix_length_le started (List.prefix_append front back)
      (Nat.le_of_lt shorter), ?_⟩
    rintro rfl
    exact Nat.lt_irrefl _ shorter
  · obtain ⟨rest, rfl⟩ := List.prefix_of_prefix_length_le (List.prefix_append front back) started longer
    refine .inr ⟨rest, rfl, (List.prefix_append_right_inj front).mp started, ?_⟩
    rintro rfl
    exact proper rfl

namespace Reads

variable {reader : Reader α} {bytes cut : List UInt8} {value : α}

theorem truncated (reads : Reads reader bytes value) (stable : Stable reader)
    (started : cut <+: bytes) (proper : cut ≠ bytes) : reader cut = none := by
  obtain ⟨missing, rfl⟩ := started
  cases read : reader cut with
  | none => rfl
  | some result =>
      obtain ⟨early, rest⟩ := result
      have whole := stable.append read missing
      rw [reads.all, Option.some.injEq, Prod.mk.injEq] at whole
      have missed := (List.append_eq_nil_iff.mp whole.2.symm).2
      rw [missed, List.append_nil] at proper
      exact absurd rfl proper

theorem bind_truncated {next : α → Reader β} (reads : Reads reader bytes value)
    (stable : Stable reader) (started : cut <+: bytes) (proper : cut ≠ bytes) :
    (reader >>= next) cut = none := by
  change (reader cut).bind _ = none
  rw [reads.truncated stable started proper]
  rfl

theorem bind_append {next : α → Reader β} (reads : Reads reader bytes value) (rest : List UInt8) :
    (reader >>= next) (bytes ++ rest) = next value rest := by
  change (reader (bytes ++ rest)).bind _ = _
  rw [reads rest]
  rfl

/-- Where an optional section is cut off, it is absent or not readable. -/
theorem optional_truncated (absent : α) (reads : Reads reader bytes value) (stable : Stable reader)
    (started : cut <+: bytes) (proper : cut ≠ bytes) :
    Reader.optional absent reader cut = if cut = [] then some (absent, []) else none := by
  rw [Reader.optional]
  split_ifs with empty missing missing
  · rw [missing]
  · exact absurd (List.isEmpty_iff.mp empty) missing
  · exact absurd (List.isEmpty_iff.mpr missing) empty
  · exact reads.truncated stable started proper

end Reads

end Foculus.Data

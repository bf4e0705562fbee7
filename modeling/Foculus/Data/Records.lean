import Mathlib.Data.List.Forall2
import Mathlib.Logic.Equiv.Defs

namespace Foculus.Data

/-! Records written one after the other into a byte buffer.

A record of fixed width can be cut off the front of a buffer again; a sequence
of records of different widths can only when it is known which record comes
next.  A `Pattern` says what is known of a buffer once the kinds of its records
are: the tag bytes have fixed values and every other byte is free.  Two
sequences of kinds can give one and the same buffer exactly when their patterns
are compatible.
-/

/-- `encode` is a bijection from `α` onto the byte strings of length `width`. -/
structure FixedWidth (encode : α → List UInt8) (width : Nat) : Prop where
  length_eq : ∀ value, (encode value).length = width
  injective : Function.Injective encode
  covers : ∀ bytes, bytes.length = width → ∃ value, encode value = bytes

namespace FixedWidth

theorem byte : FixedWidth (fun value : UInt8 => [value]) 1 where
  length_eq _ := rfl
  injective := List.singleton_injective
  covers bytes length := by
    obtain ⟨value, rfl⟩ := List.length_eq_one_iff.mp length
    exact ⟨value, rfl⟩

theorem comap {encode : α → List UInt8} (fixed : FixedWidth encode width) (fields : β ≃ α) :
    FixedWidth (fun value => encode (fields value)) width where
  length_eq value := fixed.length_eq (fields value)
  injective := fixed.injective.comp fields.injective
  covers bytes length := by
    obtain ⟨value, encoded⟩ := fixed.covers bytes length
    exact ⟨fields.symm value, by rw [fields.apply_symm_apply, encoded]⟩

theorem append {first : α → List UInt8} {second : β → List UInt8}
    (firstFixed : FixedWidth first width) (secondFixed : FixedWidth second size) :
    FixedWidth (fun value : α × β => first value.1 ++ second value.2) (width + size) where
  length_eq value := by
    rw [List.length_append, firstFixed.length_eq, secondFixed.length_eq]
  injective := by
    intro left right same
    obtain ⟨heads, tails⟩ := List.append_inj same
      (by rw [firstFixed.length_eq, firstFixed.length_eq])
    exact Prod.ext (firstFixed.injective heads) (secondFixed.injective tails)
  covers bytes length := by
    obtain ⟨head, headEncoded⟩ := firstFixed.covers (bytes.take width) (by
      rw [List.length_take]
      omega)
    obtain ⟨tail, tailEncoded⟩ := secondFixed.covers (bytes.drop width) (by
      rw [List.length_drop]
      omega)
    exact ⟨(head, tail), by rw [headEncoded, tailEncoded, List.take_append_drop]⟩

theorem flatMap_length {encode : α → List UInt8} (fixed : FixedWidth encode width)
    (values : List α) : (values.flatMap encode).length = values.length * width := by
  induction values with
  | nil => simp
  | cons value rest ih =>
      rw [List.flatMap_cons, List.length_append, fixed.length_eq, ih, List.length_cons,
        Nat.succ_mul, Nat.add_comm]

theorem flatMap_inj {encode : α → List UInt8} (fixed : FixedWidth encode width)
    {left right : List α} (lengths : left.length = right.length)
    (same : left.flatMap encode = right.flatMap encode) : left = right := by
  induction left generalizing right with
  | nil => exact (List.eq_nil_of_length_eq_zero lengths.symm).symm
  | cons value rest ih =>
      cases right with
      | nil => cases lengths
      | cons other others =>
          obtain ⟨heads, tails⟩ := List.append_inj same
            (by rw [fixed.length_eq, fixed.length_eq])
          rw [fixed.injective heads, ih (Nat.succ.inj lengths) tails]

theorem flatMap_covers {encode : α → List UInt8} (fixed : FixedWidth encode width)
    (count : Nat) (bytes : List UInt8) (length : bytes.length = count * width) :
    ∃ values : List α, values.length = count ∧ values.flatMap encode = bytes := by
  induction count generalizing bytes with
  | zero =>
      rw [Nat.zero_mul] at length
      exact ⟨[], rfl, (List.eq_nil_of_length_eq_zero length).symm⟩
  | succ count ih =>
      rw [Nat.succ_mul] at length
      obtain ⟨value, encoded⟩ := fixed.covers (bytes.take width) (by
        rw [List.length_take]
        omega)
      obtain ⟨values, counted, written⟩ := ih (bytes.drop width) (by
        rw [List.length_drop]
        omega)
      refine ⟨value :: values, by rw [List.length_cons, counted], ?_⟩
      rw [List.flatMap_cons, encoded, written, List.take_append_drop]

end FixedWidth

/-- The bytes of a buffer as far as they are known beforehand. -/
abbrev Pattern := List (Option UInt8)

namespace Pattern

def Matches (pattern : Pattern) (bytes : List UInt8) : Prop :=
  List.Forall₂ (fun known byte => ∀ value ∈ known, value = byte) pattern bytes

/-- Equally long, and no position where both know the byte and disagree. -/
def Compatible (left right : Pattern) : Prop :=
  List.Forall₂ (fun known other => ∀ value ∈ known, ∀ byte ∈ other, value = byte) left right

instance (left right : Pattern) : Decidable (Compatible left right) :=
  inferInstanceAs (Decidable (List.Forall₂ _ left right))

def free (count : Nat) : Pattern := List.replicate count none

theorem matches_free {bytes : List UInt8} : Matches (free count) bytes ↔ bytes.length = count := by
  induction count generalizing bytes with
  | zero =>
      rw [Matches, free, List.replicate_zero, List.forall₂_nil_left_iff, List.length_eq_zero_iff]
  | succ count ih =>
      rw [Matches, free, List.replicate_succ, List.forall₂_cons_left_iff]
      constructor
      · intro split
        obtain ⟨byte, rest, _, tail, rfl⟩ := split
        rw [List.length_cons, ih.mp tail]
      · intro length
        obtain ⟨byte, rest, rfl⟩ := List.exists_cons_of_length_eq_add_one length
        exact ⟨byte, rest, by simp, ih.mpr (Nat.succ.inj length), rfl⟩

theorem matches_known {value : UInt8} {bytes : List UInt8} :
    Matches [some value] bytes ↔ bytes = [value] := by
  rw [Matches, List.forall₂_cons_left_iff]
  constructor
  · intro split
    obtain ⟨byte, rest, known, tail, rfl⟩ := split
    rw [List.forall₂_nil_left_iff] at tail
    rw [tail, known value rfl]
  · rintro rfl
    exact ⟨value, [], by simp, .nil, rfl⟩

theorem matches_append {first second : Pattern} {bytes : List UInt8} :
    Matches (first ++ second) bytes ↔
      ∃ front back, bytes = front ++ back ∧ Matches first front ∧ Matches second back := by
  constructor
  · intro matched
    refine ⟨bytes.take first.length, bytes.drop first.length,
      (List.take_append_drop _ _).symm, ?_, ?_⟩
    · have cut := List.forall₂_take first.length matched
      rwa [List.take_left] at cut
    · have cut := List.forall₂_drop first.length matched
      rwa [List.drop_left] at cut
  · intro split
    obtain ⟨front, back, rfl, frontMatches, backMatches⟩ := split
    exact List.rel_append frontMatches backMatches

/-- Patterns are compatible exactly when some buffer fits both. -/
theorem exists_matches_iff {left right : Pattern} :
    (∃ bytes, Matches left bytes ∧ Matches right bytes) ↔ Compatible left right := by
  constructor
  · intro shared
    obtain ⟨bytes, leftMatches, rightMatches⟩ := shared
    induction leftMatches generalizing right with
    | nil =>
        rw [Matches, List.forall₂_nil_right_iff] at rightMatches
        rw [rightMatches]
        exact .nil
    | cons known _ ih =>
        obtain ⟨other, rest, otherKnown, tail, rfl⟩ := List.forall₂_cons_right_iff.mp rightMatches
        refine .cons ?_ (ih tail)
        intro value member byte otherMember
        rw [known value member, otherKnown byte otherMember]
  · intro compatible
    induction compatible with
    | nil => exact ⟨[], .nil, .nil⟩
    | @cons known other _ _ agree _ ih =>
        obtain ⟨bytes, leftMatches, rightMatches⟩ := ih
        -- a byte known on either side decides; on neither, any byte will do
        refine ⟨(known <|> other).getD 0 :: bytes, .cons ?_ leftMatches, .cons ?_ rightMatches⟩
        · intro value member
          cases member
          rfl
        · intro value member
          cases member
          cases known with
          | none => rfl
          | some byte => exact (agree byte rfl value rfl).symm

end Pattern

end Foculus.Data

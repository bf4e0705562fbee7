import Mathlib.Data.List.Basic

namespace Foculus.Data

/-! Frames cut off the front of a stream that arrives in pieces.

`cut` takes one frame off a buffer that holds a whole one.  Where its answer
depends only on the bytes of that frame, the frames a receiver sees do not
depend on how the stream was divided into pieces.
-/

section Receiving

variable (cut : List β → Option (γ × List β)) (body : σ → γ → σ)

/-- The body run on one frame after the other, as long as there is a whole one. -/
def eachFrame : (fuel : Nat) → σ → List β → σ × List β
  | 0, state, buffer => (state, buffer)
  | fuel + 1, state, buffer =>
      match cut buffer with
      | some (frame, rest) => eachFrame fuel (body state frame) rest
      | none => (state, buffer)

/-- A receiver that appends every piece to its buffer; an empty piece ends the stream. -/
def feedPieces : List (List β) → σ → List β → σ × List β
  | [], state, buffer => (state, buffer)
  | piece :: pieces, state, buffer =>
      if piece.isEmpty then (state, buffer)
      else
        let (after, left) := eachFrame cut body (buffer ++ piece).length state (buffer ++ piece)
        feedPieces pieces after left

end Receiving

structure Cuts (cut : List β → Option (γ × List β)) : Prop where
  shrinks : ∀ {buffer : List β} {frame : γ} {rest : List β},
    cut buffer = some (frame, rest) → rest.length < buffer.length
  stable : ∀ {buffer : List β} {frame : γ} {rest : List β},
    cut buffer = some (frame, rest) → ∀ more, cut (buffer ++ more) = some (frame, rest ++ more)

namespace Cuts

variable {cut : List β → Option (γ × List β)} {body : σ → γ → σ} {state : σ}
  {buffer rest more : List β} {frame : γ} {fuel other : Nat}

theorem eachFrame_waiting (waiting : cut buffer = none) :
    eachFrame cut body fuel state buffer = (state, buffer) := by
  cases fuel with
  | zero => rfl
  | succ fuel => rw [eachFrame, waiting]

theorem eachFrame_found (found : cut buffer = some (frame, rest)) :
    eachFrame cut body (fuel + 1) state buffer = eachFrame cut body fuel (body state frame) rest := by
  rw [eachFrame, found]

theorem eachFrame_length (cuts : Cuts cut) :
    (eachFrame cut body fuel state buffer).2.length ≤ buffer.length := by
  induction fuel generalizing state buffer with
  | zero => exact Nat.le_refl _
  | succ fuel ih =>
      rcases found : cut buffer with _ | ⟨frame, rest⟩
      · exact Nat.le_of_eq (by rw [eachFrame_waiting found])
      · rw [eachFrame_found found]
        exact Nat.le_trans ih (Nat.le_of_lt (cuts.shrinks found))

/-- With fuel for every byte the loop ends because there is no whole frame left. -/
theorem eachFrame_ends (cuts : Cuts cut) (enough : buffer.length ≤ fuel) :
    cut (eachFrame cut body fuel state buffer).2 = none := by
  induction fuel generalizing state buffer with
  | zero =>
      rcases found : cut buffer with _ | ⟨frame, rest⟩
      · rw [eachFrame_waiting found, found]
      · have shorter := cuts.shrinks found
        omega
  | succ fuel ih =>
      rcases found : cut buffer with _ | ⟨frame, rest⟩
      · rw [eachFrame_waiting found, found]
      · have shorter := cuts.shrinks found
        rw [eachFrame_found found]
        exact ih (by omega)

theorem eachFrame_fuel (cuts : Cuts cut) (enough : buffer.length ≤ fuel)
    (otherEnough : buffer.length ≤ other) :
    eachFrame cut body fuel state buffer = eachFrame cut body other state buffer := by
  induction fuel generalizing state buffer other with
  | zero =>
      rcases found : cut buffer with _ | ⟨frame, rest⟩
      · rw [eachFrame_waiting found, eachFrame_waiting found]
      · have shorter := cuts.shrinks found
        omega
  | succ fuel ih =>
      rcases found : cut buffer with _ | ⟨frame, rest⟩
      · rw [eachFrame_waiting found, eachFrame_waiting found]
      · have shorter := cuts.shrinks found
        obtain ⟨other, rfl⟩ := Nat.exists_eq_succ_of_ne_zero (n := other) (by omega)
        rw [eachFrame_found found, eachFrame_found found]
        exact ih (by omega) (by omega)

/-- What comes later does not change the frames that were whole before. -/
theorem eachFrame_append (cuts : Cuts cut) (enough : buffer.length ≤ fuel)
    (otherEnough : (buffer ++ more).length ≤ other) :
    eachFrame cut body other state (buffer ++ more) =
      eachFrame cut body other (eachFrame cut body fuel state buffer).1
        ((eachFrame cut body fuel state buffer).2 ++ more) := by
  induction fuel generalizing state buffer other with
  | zero => rfl
  | succ fuel ih =>
      rcases found : cut buffer with _ | ⟨frame, rest⟩
      · rw [eachFrame_waiting found]
      · have shorter := cuts.shrinks found
        rw [List.length_append] at otherEnough
        obtain ⟨other, rfl⟩ := Nat.exists_eq_succ_of_ne_zero (n := other) (by omega)
        have wide : (rest ++ more).length ≤ other := by
          rw [List.length_append]
          omega
        have left : (eachFrame cut body fuel (body state frame) rest).2.length ≤ rest.length :=
          cuts.eachFrame_length
        rw [eachFrame_found (cuts.stable found more), ih (by omega) wide, eachFrame_found found]
        exact cuts.eachFrame_fuel (by rw [List.length_append]; omega)
          (by rw [List.length_append]; omega)

/-- The receiver sees the stream as if it had come in one piece. -/
theorem feedPieces_eq (cuts : Cuts cut) {pieces : List (List β)}
    (pending : ∀ piece ∈ pieces, piece ≠ []) (waiting : cut buffer = none)
    (enough : (buffer ++ pieces.flatten).length ≤ fuel) :
    feedPieces cut body pieces state buffer =
      eachFrame cut body fuel state (buffer ++ pieces.flatten) := by
  induction pieces generalizing state buffer with
  | nil =>
      rw [List.flatten_nil, List.append_nil, eachFrame_waiting waiting]
      rfl
  | cons piece pieces ih =>
      have nonempty : ¬ piece.isEmpty := by simpa using pending piece List.mem_cons_self
      have left : (eachFrame cut body (buffer ++ piece).length state (buffer ++ piece)).2.length ≤
          (buffer ++ piece).length := cuts.eachFrame_length
      simp only [List.flatten_cons, ← List.append_assoc] at enough ⊢
      rw [feedPieces, if_neg nonempty, cuts.eachFrame_append (Nat.le_refl _) enough]
      refine ih (fun other member => pending other (List.mem_cons_of_mem piece member))
        (cuts.eachFrame_ends (Nat.le_refl _)) ?_
      simp only [List.length_append] at enough left ⊢
      omega

/-- A stream of encoded frames is taken apart into exactly these frames. -/
theorem eachFrame_encoded {encode : α → List β} {read : α → γ} (values : List α)
    (cuts : Cuts cut) (ended : cut [] = none)
    (each : ∀ value ∈ values, ∀ rest, cut (encode value ++ rest) = some (read value, rest))
    (enough : (values.flatMap encode).length ≤ fuel) :
    eachFrame cut body fuel state (values.flatMap encode) =
      (values.foldl (fun state value => body state (read value)) state, []) := by
  induction values generalizing state fuel with
  | nil => exact eachFrame_waiting ended
  | cons value values ih =>
      have found := each value List.mem_cons_self (values.flatMap encode)
      have shorter := cuts.shrinks found
      rw [List.flatMap_cons] at enough ⊢
      obtain ⟨fuel, rfl⟩ := Nat.exists_eq_succ_of_ne_zero (n := fuel) (by omega)
      rw [eachFrame_found found, ih (fun other member => each other (List.mem_cons_of_mem value member))
        (by omega), List.foldl_cons]

end Cuts

end Foculus.Data

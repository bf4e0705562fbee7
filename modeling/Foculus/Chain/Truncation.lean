import Foculus.Data.Truncation
import Foculus.Chain.Frames

namespace Foculus.Chain

open Data

/-! Truncated signal payloads.

The two trailing sections of a signal may be missing, for frames that were written
before there were box moves and focus shifts.  So a payload that is cut off at the
end of a section still decodes, without what followed; one that is cut off anywhere
else does not.
-/

section Layout

/-- The payload up to the end of the links. -/
def throughLinks (sig : Signal) : List UInt8 :=
  sig.neuron.toList ++ u64Bytes sig.step ++ sig.prev.toList ++ u64Bytes sig.height ++
    u32Bytes sig.links.length ++ sig.links.flatMap Signal.linkBytes

def movesSection (sig : Signal) : List UInt8 :=
  u32Bytes sig.boxMoves.length ++ sig.boxMoves.flatMap Signal.moveBytes

def deltasSection (sig : Signal) : List UInt8 :=
  u32Bytes sig.deltaPi.length ++ sig.deltaPi.flatMap Signal.deltaBytes

/-- The payload up to the end of the box moves. -/
def throughMoves (sig : Signal) : List UInt8 := throughLinks sig ++ movesSection sig

theorem serializeSignal_sections (sig : Signal) :
    serializeSignal sig = throughLinks sig ++ (movesSection sig ++ deltasSection sig) := by
  simp only [serializeSignal, throughLinks, movesSection, deltasSection, List.append_assoc]

theorem movesSection_ne_nil (sig : Signal) : movesSection sig ≠ [] := by
  simp [movesSection, u32Bytes, leBytes]

/-- The fields up to the links. -/
def takeHead : Reader Signal := do
  let neuron ← take32
  let step ← takeU64
  let prev ← take32
  let height ← takeU64
  let links ← takeCounted takeLink
  return { neuron, network := selfNetwork, links, deltaPi := [], boxMoves := [], prev, step, height }

/-- The trailing sections. -/
def takeTail (sig : Signal) : Reader Signal := do
  let boxMoves ← Reader.optional [] (takeCounted takeMove)
  let deltaPi ← Reader.optional [] (takeCounted takeDelta)
  return { sig with boxMoves, deltaPi }

theorem takeSignal_eq : takeSignal = takeHead >>= takeTail := by
  simp only [takeSignal, takeHead, takeTail, bind_assoc, pure_bind]

end Layout

section Fields

theorem take32_stable : Stable take32 := .array 32

theorem takeLink_stable : Stable takeLink :=
  take32_stable.bind fun _ => take32_stable.bind fun _ => take32_stable.bind fun _ =>
    take32_stable.bind fun _ => Stable.u64.bind fun _ => Stable.u8.bind fun _ => Stable.u64.last _

theorem takeMove_stable : Stable takeMove := by
  refine take32_stable.bind fun nullifier => Stable.u8.bind fun tag => ?_
  split
  · exact .pure _
  · split
    · exact take32_stable.bind fun _ => Stable.u64.last _
    · exact .failure

theorem takeDelta_stable : Stable takeDelta := take32_stable.bind fun _ => Stable.u64.last _

theorem takeCounted_stable {reader : Reader α} (each : Stable reader) :
    Stable (takeCounted reader) :=
  (Stable.number 4).bind each.repeated

theorem takeHead_stable : Stable takeHead :=
  take32_stable.bind fun _ => Stable.u64.bind fun _ => take32_stable.bind fun _ =>
    Stable.u64.bind fun _ => (takeCounted_stable takeLink_stable).last _

end Fields

/-- What the fields up to the links tell of a signal. -/
def headOnly (sig : Signal) : Signal := { sig with boxMoves := [], deltaPi := [] }

section Sections

variable {sig : Signal} {cut : List UInt8}

theorem takeHead_reads (shippable : Shippable sig) :
    Reads takeHead (throughLinks sig) (headOnly sig) := by
  have links := takeCounted_reads shippable.links takeLink_reads
  have whole : { headOnly sig with network := selfNetwork, links := sig.links } = headOnly sig := by
    rw [headOnly, ← shippable.network]
  simp only [throughLinks, List.append_assoc]
  rw [← whole]
  exact (take32_reads sig.neuron).bind ((takeU64_reads sig.step).bind
    ((take32_reads sig.prev).bind ((takeU64_reads sig.height).bind (links.last _))))

theorem takeTail_nil (sig : Signal) : takeTail sig [] = some (headOnly sig, []) := rfl

/-- Within the box moves only the cut before them is accepted. -/
theorem takeTail_within_moves (shippable : Shippable sig) (started : cut <+: movesSection sig)
    (proper : cut ≠ movesSection sig) :
    takeTail (headOnly sig) cut = if cut = [] then some (headOnly sig, []) else none := by
  have absent := (takeCounted_reads shippable.boxMoves takeMove_reads).optional_truncated []
    (takeCounted_stable takeMove_stable) started proper
  split_ifs at absent ⊢ with missing
  · rw [missing]
    exact takeTail_nil _
  · change (Reader.optional [] (takeCounted takeMove) cut).bind _ = none
    rw [absent]
    rfl

/-- Within the focus shifts only the cut before them is accepted. -/
theorem takeTail_within_deltas (shippable : Shippable sig) (started : cut <+: deltasSection sig)
    (proper : cut ≠ deltasSection sig) :
    takeTail (headOnly sig) (movesSection sig ++ cut) =
      if cut = [] then some ({ sig with deltaPi := [] }, []) else none := by
  have moves : Reads (Reader.optional [] (takeCounted takeMove)) (movesSection sig) sig.boxMoves :=
    (takeCounted_reads shippable.boxMoves takeMove_reads).optional [] (movesSection_ne_nil sig)
  have absent := (takeCounted_reads shippable.deltaPi takeDelta_reads).optional_truncated []
    (takeCounted_stable takeDelta_stable) started proper
  rw [takeTail, moves.bind_append]
  split_ifs at absent ⊢ with missing
  · rw [missing]
    rfl
  · change (Reader.optional [] (takeCounted takeDelta) cut).bind _ = none
    rw [absent]
    rfl

end Sections

/-- A payload that is cut off decodes only if the cut is at the end of the links or at
the end of the box moves, and then to the signal without what was cut off. -/
theorem deserializeSignal_truncated {sig : Signal} (shippable : Shippable sig) {cut : List UInt8}
    (started : cut <+: serializeSignal sig) (proper : cut ≠ serializeSignal sig) :
    deserializeSignal cut =
      if cut = throughLinks sig then some { sig with boxMoves := [], deltaPi := [] }
      else if cut = throughMoves sig then some { sig with deltaPi := [] }
      else none := by
  have head := takeHead_reads shippable
  rw [serializeSignal_sections] at started proper
  rw [deserializeSignal, takeSignal_eq]
  rcases properPrefix_append started proper with ⟨within, short⟩ | ⟨rest, rfl, after, short⟩
  · have beforeMoves : cut ≠ throughMoves sig := by
      rintro rfl
      exact movesSection_ne_nil sig (List.append_right_eq_self.mp
        (within.eq_of_length (Nat.le_antisymm within.length_le (by simp [throughMoves]))))
    rw [head.bind_truncated takeHead_stable within short, if_neg short, if_neg beforeMoves]
    rfl
  · rw [head.bind_append]
    rcases properPrefix_append after short with ⟨within, short⟩ | ⟨rest, rfl, after, short⟩
    · have beforeDeltas : throughLinks sig ++ rest ≠ throughMoves sig := by
        rw [throughMoves]
        exact fun same => short (List.append_cancel_left same)
      rw [takeTail_within_moves shippable within short, if_neg beforeDeltas]
      simp only [List.append_right_eq_self]
      split_ifs
      · rfl
      · rfl
    · have behindLinks : throughLinks sig ++ (movesSection sig ++ rest) ≠ throughLinks sig := by
        simp [movesSection_ne_nil]
      rw [takeTail_within_deltas shippable after short, if_neg behindLinks, throughMoves,
        ← List.append_assoc]
      simp only [List.append_right_eq_self]
      split_ifs
      · rfl
      · rfl

/-- A payment that is cut off at the end of the box moves of its signal. -/
theorem deserializeSignal_truncated_sample :
    (throughMoves sampleSignal).length < (serializeSignal sampleSignal).length ∧
      deserializeSignal (throughMoves sampleSignal) = some { sampleSignal with deltaPi := [] } ∧
      deserializeSignal ((throughMoves sampleSignal).take 100) = none := by
  have shippable : Shippable sampleSignal := ⟨rfl, by decide, by decide, by decide⟩
  have shorter : (throughMoves sampleSignal).length < (serializeSignal sampleSignal).length := by
    decide +kernel
  have started : throughMoves sampleSignal <+: serializeSignal sampleSignal := by
    rw [serializeSignal_sections, ← List.append_assoc]
    exact List.prefix_append _ _
  have proper : throughMoves sampleSignal ≠ serializeSignal sampleSignal := by
    intro same
    rw [same] at shorter
    exact Nat.lt_irrefl _ shorter
  refine ⟨shorter, ?_, ?_⟩
  · rw [deserializeSignal_truncated shippable started proper]
    decide +kernel
  · rw [deserializeSignal_truncated shippable ((List.take_prefix 100 _).trans started)
      (by decide +kernel)]
    decide +kernel

end Foculus.Chain

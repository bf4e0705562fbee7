import Foculus.Chain.Signal

namespace Foculus.Chain

open Data

/-! What a content id determines.

`content_id` writes the records of a signal one after the other and never how
many there are.  The buffer determines the signal once its layout is known: the
number of links, the number of focus shifts, and which box moves carry a
commitment.
-/

structure Layout where
  links : Nat
  deltas : Nat
  moves : List Bool
deriving DecidableEq

def Signal.layout (sig : Signal) : Layout where
  links := sig.links.length
  deltas := sig.deltaPi.length
  moves := sig.boxMoves.map fun move => move.commitment.isSome

namespace Layout

/-- A box move is 33 bytes without and 73 bytes with a commitment; the tag byte
at offset 32 tells which. -/
def movePattern (committed : Bool) : Pattern :=
  Pattern.free 32 ++ if committed then [some 1] ++ Pattern.free 40 else [some 0]

/-- What is known of the buffer of a signal with this layout: its length and
the tag bytes of the box moves. -/
def pattern (layout : Layout) : Pattern :=
  Pattern.free (104 + layout.links * 145 + layout.deltas * 40) ++ layout.moves.flatMap movePattern

end Layout

namespace Signal

theorem deltaBytes_fixedWidth : FixedWidth deltaBytes 40 :=
  Particle.toList_fixedWidth.append u64Bytes_fixedWidth

def linkFields : CyberlinkRecord ≃
    (((((Particle × Particle) × Particle) × Particle) × UInt64) × UInt8) × UInt64 where
  toFun link := ((((((link.neuron, link.from), link.to), link.token), link.amount),
    link.valence.toUInt8), link.height)
  invFun fields := {
    neuron := fields.1.1.1.1.1.1
    «from» := fields.1.1.1.1.1.2
    «to» := fields.1.1.1.1.2
    token := fields.1.1.1.2
    amount := fields.1.1.2
    valence := ⟨fields.1.2⟩
    height := fields.2 }
  left_inv _ := rfl
  right_inv _ := rfl

theorem linkBytes_fixedWidth : FixedWidth linkBytes 145 :=
  FixedWidth.comap ((((((Particle.toList_fixedWidth.append Particle.toList_fixedWidth).append
    Particle.toList_fixedWidth).append Particle.toList_fixedWidth).append
    u64Bytes_fixedWidth).append FixedWidth.byte).append u64Bytes_fixedWidth) linkFields

def headBytes (fields : ((Particle × Particle) × UInt64) × Particle) : List UInt8 :=
  fields.1.1.1.toList ++ fields.1.1.2.toList ++ u64Bytes fields.1.2 ++ fields.2.toList

theorem headBytes_fixedWidth : FixedWidth headBytes 104 :=
  ((Particle.toList_fixedWidth.append Particle.toList_fixedWidth).append
    u64Bytes_fixedWidth).append Particle.toList_fixedWidth

def head (sig : Signal) : ((Particle × Particle) × UInt64) × Particle :=
  (((sig.neuron, sig.network), sig.step), sig.prev)

theorem contentBytes_eq (sig : Signal) :
    sig.contentBytes = headBytes sig.head ++ sig.links.flatMap linkBytes ++
      sig.deltaPi.flatMap deltaBytes ++ sig.boxMoves.flatMap moveBytes := rfl

theorem matches_movePattern_iff {committed : Bool} {bytes : List UInt8} :
    (Layout.movePattern committed).Matches bytes ↔
      ∃ move : BoxMoveRecord, move.commitment.isSome = committed ∧ moveBytes move = bytes := by
  rw [Layout.movePattern, Pattern.matches_append]
  constructor
  · intro split
    obtain ⟨front, back, rfl, frontMatches, backMatches⟩ := split
    obtain ⟨nullifier, rfl⟩ :=
      Particle.toList_fixedWidth.covers front (Pattern.matches_free.mp frontMatches)
    cases committed with
    | false =>
        have tag := Pattern.matches_known.mp backMatches
        exact ⟨⟨nullifier, none⟩, rfl, by rw [tag]; rfl⟩
    | true =>
        obtain ⟨tag, rest, rfl, tagMatches, restMatches⟩ := Pattern.matches_append.mp backMatches
        rw [Pattern.matches_known.mp tagMatches]
        obtain ⟨commitment, rfl⟩ :=
          deltaBytes_fixedWidth.covers rest (Pattern.matches_free.mp restMatches)
        exact ⟨⟨nullifier, some commitment⟩, rfl, rfl⟩
  · intro written
    obtain ⟨⟨nullifier, commitment⟩, flag, rfl⟩ := written
    have front := Pattern.matches_free.mpr (Particle.toList_fixedWidth.length_eq nullifier)
    refine ⟨nullifier.toList, _, rfl, front, ?_⟩
    cases commitment with
    | none =>
        cases flag
        exact Pattern.matches_known.mpr rfl
    | some pair =>
        cases flag
        exact Pattern.matches_append.mpr ⟨[1], deltaBytes pair, rfl, Pattern.matches_known.mpr rfl,
          Pattern.matches_free.mpr (deltaBytes_fixedWidth.length_eq pair)⟩

theorem moveBytes_matches (move : BoxMoveRecord) :
    (Layout.movePattern move.commitment.isSome).Matches (moveBytes move) :=
  matches_movePattern_iff.mpr ⟨move, rfl, rfl⟩

theorem moveBytes_inj {left right : BoxMoveRecord}
    (flags : left.commitment.isSome = right.commitment.isSome)
    (same : moveBytes left = moveBytes right) : left = right := by
  obtain ⟨leftNullifier, leftCommitment⟩ := left
  obtain ⟨rightNullifier, rightCommitment⟩ := right
  obtain ⟨nullifiers, rest⟩ := List.append_inj same (by simp)
  have heads : leftNullifier = rightNullifier := Vector.toList_inj.mp nullifiers
  subst heads
  cases leftCommitment with
  | none =>
      cases rightCommitment with
      | none => rfl
      | some pair => cases flags
  | some pair =>
      cases rightCommitment with
      | none => cases flags
      | some other =>
          have pairs : pair = other :=
            deltaBytes_fixedWidth.injective (List.cons.inj rest |>.2)
          rw [pairs]

theorem moves_matches (moves : List BoxMoveRecord) :
    Pattern.Matches ((moves.map fun move => move.commitment.isSome).flatMap Layout.movePattern)
      (moves.flatMap moveBytes) := by
  induction moves with
  | nil => exact .nil
  | cons move rest ih =>
      exact Pattern.matches_append.mpr ⟨_, _, rfl, moveBytes_matches move, ih⟩

theorem moves_covers {flags : List Bool} {bytes : List UInt8}
    (matched : Pattern.Matches (flags.flatMap Layout.movePattern) bytes) :
    ∃ moves : List BoxMoveRecord,
      moves.map (fun move => move.commitment.isSome) = flags ∧ moves.flatMap moveBytes = bytes := by
  induction flags generalizing bytes with
  | nil =>
      cases matched
      exact ⟨[], rfl, rfl⟩
  | cons flag rest ih =>
      obtain ⟨front, back, rfl, frontMatches, backMatches⟩ := Pattern.matches_append.mp matched
      obtain ⟨move, flagged, rfl⟩ := matches_movePattern_iff.mp frontMatches
      obtain ⟨moves, flags, rfl⟩ := ih backMatches
      exact ⟨move :: moves, by rw [List.map_cons, flagged, flags], rfl⟩

theorem moves_inj {left right : List BoxMoveRecord}
    (flags : left.map (fun move => move.commitment.isSome) =
      right.map fun move => move.commitment.isSome)
    (same : left.flatMap moveBytes = right.flatMap moveBytes) : left = right := by
  induction left generalizing right with
  | nil => exact (List.map_eq_nil_iff.mp flags.symm).symm
  | cons move rest ih =>
      cases right with
      | nil => cases flags
      | cons other others =>
          obtain ⟨flag, restFlags⟩ := List.cons.inj flags
          dsimp only at flag
          have widths : (moveBytes move).length = (moveBytes other).length := by
            have left := (moveBytes_matches move).length_eq
            have right := (moveBytes_matches other).length_eq
            rw [flag] at left
            rw [← left, ← right]
          obtain ⟨heads, tails⟩ := List.append_inj same widths
          rw [moveBytes_inj flag heads, ih restFlags tails]

theorem front_length (sig : Signal) :
    (headBytes sig.head ++ sig.links.flatMap linkBytes ++ sig.deltaPi.flatMap deltaBytes).length =
      104 + sig.links.length * 145 + sig.deltaPi.length * 40 := by
  rw [List.length_append, List.length_append, headBytes_fixedWidth.length_eq,
    linkBytes_fixedWidth.flatMap_length, deltaBytes_fixedWidth.flatMap_length]

theorem contentBytes_matches (sig : Signal) : sig.layout.pattern.Matches sig.contentBytes :=
  Pattern.matches_append.mpr ⟨_, _, sig.contentBytes_eq, Pattern.matches_free.mpr sig.front_length,
    moves_matches sig.boxMoves⟩

/-- Every string that fits the pattern of a layout is the buffer of some signal
with that layout. -/
theorem contentBytes_covers {layout : Layout} {bytes : List UInt8}
    (matched : layout.pattern.Matches bytes) :
    ∃ sig : Signal, sig.layout = layout ∧ sig.contentBytes = bytes := by
  obtain ⟨front, back, rfl, frontMatches, backMatches⟩ := Pattern.matches_append.mp matched
  have length := Pattern.matches_free.mp frontMatches
  obtain ⟨fields, headWritten⟩ := headBytes_fixedWidth.covers (front.take 104) (by
    rw [List.length_take]
    omega)
  obtain ⟨links, linkCount, linksWritten⟩ := linkBytes_fixedWidth.flatMap_covers layout.links
    ((front.drop 104).take (layout.links * 145)) (by
      rw [List.length_take, List.length_drop]
      omega)
  obtain ⟨deltas, deltaCount, deltasWritten⟩ := deltaBytes_fixedWidth.flatMap_covers layout.deltas
    ((front.drop 104).drop (layout.links * 145)) (by
      rw [List.length_drop, List.length_drop]
      omega)
  obtain ⟨moves, flags, rfl⟩ := moves_covers backMatches
  let sig : Signal := {
    neuron := fields.1.1.1
    network := fields.1.1.2
    links
    deltaPi := deltas
    boxMoves := moves
    prev := fields.2
    step := fields.1.2
    height := 0 }
  refine ⟨sig, ?_, ?_⟩
  · simp only [sig, Signal.layout, linkCount, deltaCount, flags]
  · rw [contentBytes_eq]
    dsimp only [sig, head]
    rw [headWritten, linksWritten, deltasWritten, List.append_assoc (front.take 104),
      List.take_append_drop, List.take_append_drop]

theorem sameContent_of_contentBytes {left right : Signal} (layouts : left.layout = right.layout)
    (same : left.contentBytes = right.contentBytes) : SameContent left right := by
  obtain ⟨linkCounts, deltaCounts, flags⟩ := Layout.mk.inj layouts
  rw [contentBytes_eq, contentBytes_eq] at same
  obtain ⟨fronts, moves⟩ := List.append_inj same (by
    rw [front_length, front_length, linkCounts, deltaCounts])
  obtain ⟨records, deltas⟩ := List.append_inj fronts (by
    rw [List.length_append, List.length_append, headBytes_fixedWidth.length_eq,
      headBytes_fixedWidth.length_eq, linkBytes_fixedWidth.flatMap_length,
      linkBytes_fixedWidth.flatMap_length, linkCounts])
  obtain ⟨heads, links⟩ := List.append_inj records (by
    rw [headBytes_fixedWidth.length_eq, headBytes_fixedWidth.length_eq])
  have fields := headBytes_fixedWidth.injective heads
  unfold head at fields
  simp only [Prod.mk.injEq] at fields
  obtain ⟨⟨⟨neuron, network⟩, step⟩, prev⟩ := fields
  exact ⟨neuron, network, step, prev, linkBytes_fixedWidth.flatMap_inj linkCounts links,
    deltaBytes_fixedWidth.flatMap_inj deltaCounts deltas, moves_inj flags moves⟩

theorem SameContent.layout {left right : Signal} (same : SameContent left right) :
    left.layout = right.layout := by
  unfold Signal.layout
  rw [same.links, same.deltaPi, same.boxMoves]

/-- Signals of different layouts share a buffer exactly when the layouts fit
some common string. -/
theorem exists_contentBytes_eq_iff (left right : Layout) :
    (∃ a b : Signal, a.layout = left ∧ b.layout = right ∧ a.contentBytes = b.contentBytes) ↔
      left.pattern.Compatible right.pattern := by
  rw [← Pattern.exists_matches_iff]
  constructor
  · intro pair
    obtain ⟨a, b, rfl, rfl, same⟩ := pair
    exact ⟨a.contentBytes, a.contentBytes_matches, same ▸ b.contentBytes_matches⟩
  · intro shared
    obtain ⟨bytes, leftMatches, rightMatches⟩ := shared
    obtain ⟨a, leftLayout, leftBytes⟩ := contentBytes_covers leftMatches
    obtain ⟨b, rightLayout, rightBytes⟩ := contentBytes_covers rightMatches
    exact ⟨a, b, leftLayout, rightLayout, leftBytes.trans rightBytes.symm⟩

end Signal

end Foculus.Chain

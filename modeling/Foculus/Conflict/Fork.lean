import Foculus.Chain.Signal
import Foculus.Crates.Tru

namespace Foculus.Conflict

open Chain

/-! # Fork choice (`src/fork.rs`, `src/focus.rs`)

A strategy sees the members of a conflict group and the links around them and
names the index of the winner.
-/

inductive ForkError where
  | conflictUnderSerialize
  | empty
deriving DecidableEq, Repr

abbrev ForkChoice := List Signal → List CyberlinkRecord → Except ForkError Nat

def serialize : ForkChoice := fun members _ =>
  match members.length with
  | 0 => .error .empty
  | 1 => .ok 0
  | _ => .error .conflictUnderSerialize

/-- The loop of `MinHash` and `Focus`: the index of the best member so far and
its rank, replaced whenever a later member beats it. -/
def scan (rank : Signal → κ) (beats : κ → κ → Bool) (members : List (Signal × Nat))
    (start : Nat × κ) : Nat × κ :=
  members.foldl
    (fun (best, bestRank) (member, index) =>
      if beats (rank member) bestRank then (index, rank member) else (best, bestRank))
    start

def lowerId (id bestId : Particle) : Bool := decide (id < bestId)

def minHash (hemera : Hemera) : ForkChoice := fun members _ =>
  match members with
  | [] => .error .empty
  | first :: rest =>
      .ok (scan (·.contentId hemera) lowerId (rest.zipIdx 1) (0, first.contentId hemera)).1

def focusOf (focus : List (Particle × Fx)) (particle : Particle) : Fx :=
  ((focus.find? fun entry => entry.1 == particle).map Prod.snd).getD 0

def score (focus : List (Particle × Fx)) (sig : Signal) : Fx :=
  sig.links.foldl (fun total link => total + focusOf focus link.to) 0

def higherFocus (tru : Tru) (rank bestRank : Fx × Particle) : Bool :=
  tru.lt bestRank.1 rank.1 || (rank.1 == bestRank.1 && decide (rank.2 < bestRank.2))

def focus (hemera : Hemera) (tru : Tru) (params : tru.FocusingParams) : ForkChoice :=
  fun members view =>
    match members with
    | [] => .error .empty
    | [_] => .ok 0
    | first :: rest =>
        let links := view.map fun link => tru.stake link.from link.to link.amount.toNat
        if links.isEmpty then minHash hemera members view
        else
          let result := tru.computeFocusing links tru.noContext params
          let rank (sig : Signal) := (score result sig, sig.contentId hemera)
          .ok (scan rank (higherFocus tru) (rest.zipIdx 1) (0, rank first)).1

section Scan

variable (rank : Signal → κ) (beats : κ → κ → Bool)

theorem scan_valid (visited rest : List Signal) (best : Nat) (member : Signal)
    (found : visited[best]? = some member) :
    ∃ winner, (visited ++ rest)[(scan rank beats (rest.zipIdx visited.length)
        (best, rank member)).1]? = some winner ∧
      (scan rank beats (rest.zipIdx visited.length) (best, rank member)).2 = rank winner := by
  induction rest generalizing visited best member with
  | nil => exact ⟨member, by simpa [scan] using found, rfl⟩
  | cons next rest ih =>
      rw [List.zipIdx_cons, scan, List.foldl_cons, ← scan]
      have later := ih (visited ++ [next])
      rw [List.append_assoc, List.singleton_append, List.length_append, List.length_singleton]
        at later
      dsimp only
      split
      next =>
        exact later visited.length next (by simp)
      next =>
        refine later best member ?_
        obtain ⟨bound, _⟩ := List.getElem?_eq_some_iff.mp found
        rw [List.getElem?_append_left bound, found]

/-- When `beats` is the strict part of a total order, nothing beats the winner. -/
theorem scan_unbeaten (asymmetric : ∀ {x y}, beats x y = true → beats y x = false)
    (transitive : ∀ {x y z}, beats x y = true → beats z y = false → beats x z = true)
    (members : List (Signal × Nat)) (start : Nat × κ) :
    beats start.2 (scan rank beats members start).2 = false ∧
      ∀ entry ∈ members, beats (rank entry.1) (scan rank beats members start).2 = false := by
  induction members generalizing start with
  | nil =>
      refine ⟨?_, by simp⟩
      by_contra beaten
      rw [Bool.not_eq_false] at beaten
      have reverse := asymmetric beaten
      rw [scan, List.foldl_nil] at beaten reverse
      rw [beaten] at reverse
      cases reverse
  | cons entry rest ih =>
      rw [scan, List.foldl_cons, ← scan]
      obtain ⟨member, index⟩ := entry
      obtain ⟨best, bestRank⟩ := start
      dsimp only
      split
      next wins =>
        obtain ⟨unbeaten, others⟩ := ih (index, rank member)
        refine ⟨?_, ?_⟩
        · by_contra beaten
          rw [Bool.not_eq_false] at beaten
          have reverse := asymmetric (transitive beaten unbeaten)
          rw [wins] at reverse
          cases reverse
        · intro other otherMember
          rcases List.mem_cons.mp otherMember with rfl | later
          · exact unbeaten
          · exact others other later
      next stays =>
        obtain ⟨unbeaten, others⟩ := ih (best, bestRank)
        refine ⟨unbeaten, ?_⟩
        intro other otherMember
        rcases List.mem_cons.mp otherMember with rfl | later
        · by_contra beaten
          rw [Bool.not_eq_false] at beaten
          exact stays (transitive beaten unbeaten)
        · exact others other later

end Scan

end Foculus.Conflict

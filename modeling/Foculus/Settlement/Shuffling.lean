import Foculus.Data.Checked
import Foculus.Data.Outcome
import Foculus.Settlement.Game

namespace Foculus.Settlement.Shuffling

open Data

/-! # The shuffle with its accesses (`ordering` in `src/settlement.rs`)

In `Settlement.ordering` the types keep the positions within the list.  Here it is once
more with the positions, the slices and the sums that the code checks when it runs: each
of them may abort.
-/

/-- The closure `next`: eight bytes of the digest, which is hashed when it is used up. -/
def next (hemera : Hemera) (stream : Stream) : Outcome Unit (Nat × Stream) := do
  let ahead ← .expect (fit 64 (stream.byte + 8))
  let stream := if ahead > 32 then ⟨hemera.hash stream.digest.toList, 0⟩ else stream
  let digest := stream.digest.toList
  let stop ← .expect (fit 64 (stream.byte + 8))
  let word ← .expect
    (if stream.byte ≤ stop ∧ stop ≤ digest.length then
      some ((digest.drop stream.byte).take (stop - stream.byte))
    else none)
  let bytes ← .expect (if word.length = 8 then some word else none)
  return (ofLeBytes bytes, { stream with byte := stop })

/-- `slice::swap`. -/
def swap (perm : List Nat) (i j : Nat) : Outcome Unit (List Nat) := do
  let left ← .expect perm[i]?
  let right ← .expect perm[j]?
  return (perm.set i right).set j left

/-- The Fisher-Yates loop from position `i` down to 1. -/
def shuffle (hemera : Hemera) : (i : Nat) → Stream → List Nat → Outcome Unit (List Nat)
  | 0, _, perm => return perm
  | i + 1, stream, perm => do
      let (drawn, stream) ← next hemera stream
      let choices ← .expect (fit 64 (i + 1 + 1))
      let j ← .expect (if choices = 0 then none else some (drawn % choices))
      let perm ← swap perm (i + 1) j
      shuffle hemera i stream perm

def ordering (hemera : Hemera) (n : Nat) (beacon : Particle) (nonce : UInt64) :
    Outcome Unit (List Nat) :=
  let perm := List.range n
  if n < 2 then return perm
  else
    let digest := hemera.hash (beacon.toList ++ u64Bytes nonce)
    shuffle hemera (n - 1) ⟨digest, 0⟩ perm

variable {hemera : Hemera} {n : Nat}

/-- The slice that `next` takes lies in the digest, and the offset stays within it. -/
theorem next_eq (hemera : Hemera) {stream : Stream} (within : stream.byte ≤ 32) :
    next hemera stream = .ok (stream.next hemera) ∧ (stream.next hemera).2.byte ≤ 32 := by
  rw [next, Stream.next, fit_eq (by omega)]
  generalize refreshed : (if stream.byte + 8 > 32 then
    (⟨hemera.hash stream.digest.toList, 0⟩ : Stream) else stream) = fresh
  have room : fresh.byte + 8 ≤ 32 := by
    rw [← refreshed]
    split_ifs with used
    · change 0 + 8 ≤ 32
      omega
    · omega
  have length : fresh.digest.toList.length = 32 := fresh.digest.length_toList
  have word : ((fresh.digest.toList.drop fresh.byte).take 8).length = 8 := by
    rw [List.length_take, List.length_drop, length]
    omega
  have slice : fresh.byte ≤ fresh.byte + 8 ∧ fresh.byte + 8 ≤ fresh.digest.toList.length := by
    omega
  refine ⟨?_, room⟩
  simp only [Outcome.expect_some, Outcome.ok_bind]
  rw [refreshed, fit_eq (by omega), Outcome.expect_some, Outcome.ok_bind, if_pos slice,
    Outcome.expect_some, Outcome.ok_bind, Nat.add_sub_cancel_left, if_pos word,
    Outcome.expect_some, Outcome.ok_bind]
  rfl

theorem swap_eq (perm : Vector (Fin n) n) {i j : Nat} (first : i < n) (second : j < n) :
    swap (perm.toList.map Fin.val) i j = .ok ((perm.swap i j first second).toList.map Fin.val) := by
  have left : (perm.toList.map Fin.val)[i]? = some (perm[i] : Nat) := by simp [first]
  have right : (perm.toList.map Fin.val)[j]? = some (perm[j] : Nat) := by simp [second]
  rw [swap, left, right]
  simp only [Outcome.expect_some, Outcome.ok_bind]
  rw [Vector.toList_swap, List.map_set, List.map_set]
  rfl

/-- The checked loop comes to what the typed one does. -/
theorem shuffle_eq (small : n < 2 ^ 64) (i : Nat) (bound : i < n) {stream : Stream}
    (within : stream.byte ≤ 32) (perm : Vector (Fin n) n) :
    shuffle hemera i stream (perm.toList.map Fin.val) =
      .ok ((Settlement.shuffle hemera i bound stream perm).toList.map Fin.val) := by
  induction i generalizing stream perm with
  | zero => rfl
  | succ i ih =>
      obtain ⟨drawn, later⟩ := next_eq hemera within
      have inside : (stream.next hemera).1 % (i + 2) < n :=
        Nat.lt_of_lt_of_le (Nat.mod_lt _ (Nat.succ_pos _)) bound
      rw [shuffle, drawn, Outcome.ok_bind]
      dsimp only
      rw [fit_eq (by omega), Outcome.expect_some, Outcome.ok_bind, if_neg (Nat.succ_ne_zero _),
        Outcome.expect_some, Outcome.ok_bind, swap_eq perm bound inside, Outcome.ok_bind,
        Settlement.shuffle]
      exact ih (Nat.lt_of_succ_lt bound) later _

/-- Whatever the hash yields, `ordering` returns, with no access out of range, and lists
every position below `n` once. -/
theorem ordering_is_permutation (hemera : Hemera) (n : Nat) (small : n < 2 ^ 64)
    (beacon : Particle) (nonce : UInt64) :
    ∃ perm, ordering hemera n beacon nonce = .ok perm ∧ perm.Perm (List.range n) ∧
      perm = (Settlement.ordering hemera n beacon nonce).map Fin.val := by
  have listed : (List.finRange n).map Fin.val = List.range n := List.map_coe_finRange_eq_range
  refine ⟨_, ?_, ?_, rfl⟩
  · rw [ordering, Settlement.ordering]
    split_ifs with two
    · rw [listed]
      rfl
    · have identity : List.range n = (Vector.ofFn (id : Fin n → Fin n)).toList.map Fin.val := by
        rw [Vector.toList_ofFn, List.ofFn_id, listed]
      rw [identity]
      exact shuffle_eq small (n - 1) (by omega) (Nat.zero_le _) _
  · rw [← listed]
    exact (ordering_perm hemera n beacon nonce).map Fin.val

/-- The five draws for six contributors use up the first digest. -/
theorem ordering_is_permutation_six :
    ∃ perm, ordering .truncating 6 (Particle.padded [7]) 3 = .ok perm ∧
      perm.Perm [0, 1, 2, 3, 4, 5] := by
  obtain ⟨perm, returned, permuted, -⟩ :=
    ordering_is_permutation .truncating 6 (by decide) (Particle.padded [7]) 3
  exact ⟨perm, returned, permuted⟩

end Foculus.Settlement.Shuffling

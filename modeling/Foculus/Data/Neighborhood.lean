import Mathlib.Data.Set.Basic

namespace Foculus.Data

/-! # What lies within a number of steps

`Within step seed radius` is what a path of at most `radius` steps leads to from the
seed.  A search in layers keeps what it has found and the last layer of it: `Frontier`
is what it has to know of the two, and its next layer is one step further.
-/

section Neighborhood

variable {α : Type}

/-- A path of this many steps. -/
def Path (step : α → α → Prop) : Nat → α → α → Prop
  | 0, first, last => first = last
  | hops + 1, first, last => ∃ middle, step first middle ∧ Path step hops middle last

def Within (step : α → α → Prop) (seed : Set α) (radius : Nat) : Set α :=
  {last | ∃ first ∈ seed, ∃ hops ≤ radius, Path step hops first last}

variable {step : α → α → Prop} {seed wider support frontier : Set α} {radius larger : Nat}

theorem within_mono (seeds : seed ⊆ wider) (radii : radius ≤ larger) :
    Within step seed radius ⊆ Within step wider larger := by
  rintro last ⟨first, member, hops, short, path⟩
  exact ⟨first, seeds member, hops, Nat.le_trans short radii, path⟩

@[simp] theorem within_zero : Within step seed 0 = seed := by
  ext last
  constructor
  · rintro ⟨first, member, hops, short, path⟩
    cases Nat.le_zero.mp short
    cases path
    exact member
  · exact fun member => ⟨last, member, 0, Nat.le_refl 0, rfl⟩

/-- The first step comes before the others. -/
theorem within_succ :
    Within step seed (radius + 1) =
      Within step (seed ∪ {next | ∃ first ∈ seed, step first next}) radius := by
  ext last
  constructor
  · rintro ⟨first, member, hops, short, path⟩
    cases hops with
    | zero => exact ⟨first, .inl member, 0, Nat.zero_le _, path⟩
    | succ hops =>
        obtain ⟨middle, taken, path⟩ := path
        exact ⟨middle, .inr ⟨first, member, taken⟩, hops, Nat.le_of_succ_le_succ short, path⟩
  · rintro ⟨first, member | ⟨start, member, taken⟩, hops, short, path⟩
    · exact ⟨first, member, hops, Nat.le_succ_of_le short, path⟩
    · exact ⟨start, member, hops + 1, Nat.succ_le_succ short, first, taken, path⟩

/-- From a set that no step leaves nothing else is reached. -/
theorem within_of_closed (closed : ∀ first ∈ seed, ∀ next, step first next → next ∈ seed) :
    Within step seed radius = seed := by
  have same : seed ∪ {next | ∃ first ∈ seed, step first next} = seed := by
    refine Set.union_eq_left.mpr ?_
    rintro next ⟨first, member, taken⟩
    exact closed first member next taken
  induction radius with
  | zero => exact within_zero
  | succ radius ih => rw [within_succ, same, ih]

/-- Only the steps from the frontier are still to be taken. -/
structure Frontier (step : α → α → Prop) (support frontier : Set α) : Prop where
  inside : frontier ⊆ support
  taken : ∀ first ∈ support, first ∉ frontier → ∀ next, step first next → next ∈ support

namespace Frontier

theorem start (step : α → α → Prop) (seed : Set α) : Frontier step seed seed where
  inside := Set.Subset.refl seed
  taken _ member elsewhere := absurd member elsewhere

/-- What the steps from the frontier add is all that is one step away. -/
theorem union_eq (layered : Frontier step support frontier) :
    support ∪ {next | ∃ first ∈ frontier, step first next} =
      support ∪ {next | ∃ first ∈ support, step first next} := by
  ext next
  constructor
  · rintro (known | ⟨first, member, taken⟩)
    · exact .inl known
    · exact .inr ⟨first, layered.inside member, taken⟩
  · rintro (known | ⟨first, member, taken⟩)
    · exact .inl known
    · by_cases last : first ∈ frontier
      · exact .inr ⟨first, last, taken⟩
      · exact .inl (layered.taken first member last next taken)

/-- The next layer is what is new one step away. -/
theorem advance (layered : Frontier step support frontier) {larger : Set α}
    (grown : larger = support ∪ {next | ∃ first ∈ frontier, step first next}) :
    Frontier step larger (larger \ support) where
  inside := fun _ member => member.1
  taken := by
    intro first member old next taken
    have known : first ∈ support := by
      by_contra new
      exact old ⟨member, new⟩
    rw [grown, layered.union_eq]
    exact .inr ⟨first, known, taken⟩

/-- A layer that is empty is the last one. -/
theorem within_of_empty (layered : Frontier step support ∅) :
    Within step support radius = support :=
  within_of_closed fun first member => layered.taken first member (Set.notMem_empty first)

theorem within_succ (layered : Frontier step support frontier) :
    Within step support (radius + 1) =
      Within step (support ∪ {next | ∃ first ∈ frontier, step first next}) radius := by
  rw [Data.within_succ, layered.union_eq]

end Frontier

end Neighborhood

end Foculus.Data

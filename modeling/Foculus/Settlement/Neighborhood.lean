import Foculus.Data.Neighborhood
import Foculus.Settlement.Partition

namespace Foculus.Settlement

open Data

/-! # The ε-support is a neighborhood (`epsilon_support` in `src/partition.rs`)

The loop goes out hop by hop from the particles that the last hop has added.  A particle
is added once, whichever hop meets it first, and a hop that adds none ends the loop.
-/

/-- The link graph has the second particle among the neighbors of the first. -/
def Adjacent (adjacency : Adjacency) (particle neighbor : Particle) : Prop :=
  ∃ neighbors, adjacency[particle]? = some neighbors ∧ neighbor ∈ neighbors

section Expand

variable {adjacency : Adjacency} {first between last : ParticleSet × List Particle}

/-- These particles are put into the support, and into the next frontier if they are new. -/
structure Adds (added : Particle → Prop) (first last : ParticleSet × List Particle) : Prop where
  support : ∀ particle, particle ∈ last.1 ↔ particle ∈ first.1 ∨ added particle
  next : ∀ particle, particle ∈ last.2 ↔ particle ∈ first.2 ∨ added particle ∧ particle ∉ first.1

theorem Adds.refl (first : ParticleSet × List Particle) : Adds (fun _ => False) first first where
  support particle := by rw [or_false]
  next particle := by rw [false_and, or_false]

theorem Adds.trans {early late : Particle → Prop} (head : Adds early first between)
    (tail : Adds late between last) :
    Adds (fun particle => early particle ∨ late particle) first last where
  support particle := by rw [tail.support, head.support, or_assoc]
  next particle := by
    rw [tail.next, head.next, head.support]
    tauto

theorem adds_neighbor (state : ParticleSet × List Particle) (n : Particle) :
    Adds (· = n) state (if state.1.contains n then state
      else (state.1.insert n, state.2 ++ [n])) := by
  by_cases known : state.1.contains n = true
  · rw [if_pos known]
    have member : n ∈ state.1 := known
    refine ⟨fun particle => ?_, fun particle => ?_⟩
    · exact ⟨.inl, fun held => held.elim id fun same => same ▸ member⟩
    · refine ⟨.inl, fun held => held.elim id ?_⟩
      rintro ⟨rfl, new⟩
      exact absurd member new
  · rw [if_neg known]
    have new : n ∉ state.1 := known
    refine ⟨fun particle => ?_, fun particle => ?_⟩
    · rw [Std.ExtTreeSet.mem_insert, Std.LawfulEqCmp.compare_eq_iff_eq, or_comm, eq_comm]
    · rw [List.mem_append, List.mem_singleton]
      refine or_congr_right ⟨?_, And.left⟩
      rintro rfl
      exact ⟨rfl, new⟩

theorem adds_foldl {α : Type} (added : α → Particle → Prop)
    {visit : ParticleSet × List Particle → α → ParticleSet × List Particle}
    (each : ∀ state item, Adds (added item) state (visit state item))
    (items : List α) (state : ParticleSet × List Particle) :
    Adds (fun particle => ∃ item ∈ items, added item particle) state (items.foldl visit state) := by
  induction items generalizing state with
  | nil =>
      simp only [List.not_mem_nil, false_and, exists_false]
      exact .refl state
  | cons item rest ih =>
      simp only [List.mem_cons, exists_eq_or_imp]
      exact (each state item).trans (ih (visit state item))

theorem adds_neighbors (adjacency : Adjacency) (state : ParticleSet × List Particle)
    (particle : Particle) :
    Adds (Adjacent adjacency particle) state (match adjacency[particle]? with
      | some neighbors => neighbors.foldl (fun (support, next) n =>
          if support.contains n then (support, next) else (support.insert n, next ++ [n])) state
      | none => state) := by
  unfold Adjacent
  cases found : adjacency[particle]? with
  | none =>
      simp only [reduceCtorEq, false_and, exists_false]
      exact .refl state
  | some neighbors =>
      simp only [Option.some.injEq, exists_eq_left']
      have all := adds_foldl (fun n particle => particle = n) adds_neighbor neighbors state
      simp only [exists_eq_right'] at all
      exact all

/-- A hop adds what is adjacent to the frontier, and finds what of it is new. -/
theorem expand_adds (adjacency : Adjacency) (support : ParticleSet) (frontier : List Particle) :
    Adds (fun neighbor => ∃ particle ∈ frontier, Adjacent adjacency particle neighbor)
      (support, []) (expand adjacency support frontier) :=
  adds_foldl (Adjacent adjacency) (adds_neighbors adjacency) frontier (support, [])

end Expand

section Support

variable {adjacency : Adjacency}

/-- While the frontier has all that is left to be done, the loop comes to what its hops
reach from the support. -/
theorem mem_supportFrom (hops : Nat) {support : ParticleSet} {frontier : List Particle}
    (layered : Frontier (Adjacent adjacency) {p | p ∈ support} {p | p ∈ frontier})
    (particle : Particle) :
    particle ∈ supportFrom adjacency hops support frontier ↔
      particle ∈ Within (Adjacent adjacency) {p | p ∈ support} hops := by
  induction hops generalizing support frontier with
  | zero =>
      rw [supportFrom, within_zero]
      rfl
  | succ hops ih =>
      have adds := expand_adds adjacency support frontier
      rcases expanded : expand adjacency support frontier with ⟨larger, next⟩
      rw [expanded] at adds
      have grown : {p | p ∈ larger} = {p | p ∈ support} ∪
          {n | ∃ first ∈ {p | p ∈ frontier}, Adjacent adjacency first n} :=
        Set.ext adds.support
      have layer : {p | p ∈ next} = {p | p ∈ larger} \ {p | p ∈ support} := by
        ext p
        change p ∈ next ↔ p ∈ larger ∧ p ∉ support
        rw [adds.next, adds.support]
        simp only [List.not_mem_nil, false_or]
        tauto
      have later : Frontier (Adjacent adjacency) {p | p ∈ larger} {p | p ∈ next} :=
        layer ▸ layered.advance grown
      rw [supportFrom, expanded, layered.within_succ, ← grown]
      dsimp only
      split_ifs with ended
      · rw [List.isEmpty_iff] at ended
        have done : {p | p ∈ next} = ∅ := by
          rw [ended]
          exact Set.eq_empty_of_forall_notMem fun _ => List.not_mem_nil
        rw [done] at later
        rw [later.within_of_empty]
        rfl
      · exact ih later

theorem mem_epsilonSupport (seed : ParticleSet) (adjacency : Adjacency) (radius : Nat)
    (particle : Particle) :
    particle ∈ epsilonSupport seed adjacency radius ↔
      particle ∈ Within (Adjacent adjacency) {p | p ∈ seed} radius := by
  have listed : {p | p ∈ seed.toList} = {p | p ∈ seed} :=
    Set.ext fun _ => Std.ExtTreeSet.mem_toList
  refine mem_supportFrom radius ?_ particle
  rw [listed]
  exact .start _ _

end Support

/-- The ε-support has the particles that a path of at most `radius` hops leads to from the
seed, and no others; more seeds and more hops only ever add to it. -/
theorem epsilonSupport_is_neighborhood (seed : ParticleSet) (adjacency : Adjacency)
    (radius : Nat) :
    (∀ particle, particle ∈ epsilonSupport seed adjacency radius ↔
      ∃ first ∈ seed, ∃ hops ≤ radius, Path (Adjacent adjacency) hops first particle) ∧
    ∀ (wider : ParticleSet) (larger : Nat), (∀ particle ∈ seed, particle ∈ wider) →
      radius ≤ larger → ∀ particle ∈ epsilonSupport seed adjacency radius,
        particle ∈ epsilonSupport wider adjacency larger := by
  refine ⟨mem_epsilonSupport seed adjacency radius, ?_⟩
  intro wider larger seeds radii particle reached
  rw [mem_epsilonSupport] at reached ⊢
  exact within_mono seeds radii reached

/-- Of a chain of three particles, the second is one hop away and the third is not. -/
theorem epsilonSupport_is_neighborhood_chain :
    let hash (name : UInt8) : Particle := Particle.padded [name]
    let adjacency : Adjacency := .ofList [(hash 1, [hash 2]), (hash 2, [hash 3])]
    let seed : ParticleSet := .ofList [hash 1]
    hash 2 ∈ epsilonSupport seed adjacency 2 ∧
      ¬ ∃ first ∈ seed, ∃ hops ≤ 1, Path (Adjacent adjacency) hops first (hash 3) := by
  intro hash adjacency seed
  have near : hash 2 ∈ epsilonSupport seed adjacency 1 := by decide +kernel
  have far : hash 3 ∉ epsilonSupport seed adjacency 1 := by decide +kernel
  obtain ⟨reaches, grows⟩ := epsilonSupport_is_neighborhood seed adjacency 1
  exact ⟨grows seed 2 (fun _ => id) (by decide) (hash 2) near, (reaches (hash 3)).not.mp far⟩

end Foculus.Settlement

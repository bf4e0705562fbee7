import Foculus.Data.ClassListing
import Foculus.Settlement.Rewards

namespace Foculus.Settlement

open Data

/-! # The partition of an epoch's claims into clusters (`src/partition.rs`)

Claims whose ε-supports meet are united.  Which positions are united depends on
the order of the claims, the roots of the trees do too, and the two sorts at the
end take all of that out again.
-/

abbrev ParticleSet := Std.ExtTreeSet Particle

abbrev Adjacency := Std.ExtTreeMap Particle (List Particle)

def claimParticles (claim : RewardClaim) : ParticleSet :=
  claim.links.foldl (fun particles link => (particles.insert link.from).insert link.to) ∅

/-- One hop from `frontier`: the support with the neighbors, and those it lacked. -/
def expand (adjacency : Adjacency) (support : ParticleSet) (frontier : List Particle) :
    ParticleSet × List Particle :=
  frontier.foldl (fun state particle =>
    match adjacency[particle]? with
    | some neighbors => neighbors.foldl (fun (support, next) n =>
        if support.contains n then (support, next) else (support.insert n, next ++ [n])) state
    | none => state) (support, [])

def supportFrom (adjacency : Adjacency) : Nat → ParticleSet → List Particle → ParticleSet
  | 0, support, _ => support
  | hops + 1, support, frontier =>
      let (support, next) := expand adjacency support frontier
      if next.isEmpty then support else supportFrom adjacency hops support next

def epsilonSupport (seed : ParticleSet) (adjacency : Adjacency) (radius : Nat) : ParticleSet :=
  supportFrom adjacency radius seed seed.toList

/-- The two claims' supports share a particle. -/
def overlap (adjacency : Adjacency) (radius : Nat) (left right : RewardClaim) : Bool :=
  let support claim := epsilonSupport (claimParticles claim) adjacency radius
  !(support left ∩ support right).isEmpty

def partitionIntoClusters (claims : List RewardClaim) (adjacency : Adjacency) (radius : Nat) :
    List (List (Fin claims.length)) :=
  let parent := Forest.mergeWhere fun i j => overlap adjacency radius (claims.get i) (claims.get j)
  parent.sortedClasses fun i => (claims.get i).id

def clusterId (hemera : Hemera) (claims : List RewardClaim) (members : List (Fin claims.length)) :
    Particle :=
  let ids := (members.map fun i => (claims.get i).id).insertionSort (· ≤ ·)
  hemera.hash (strBytes "foculus-cluster-v0" ++ leBytes 8 ids.length ++ ids.flatMap Vector.toList)

/-- The clusters, with the claims' ids for their positions. -/
def idsOf (claims : List RewardClaim) (clusters : List (List (Fin claims.length))) :
    List (List Particle) :=
  clusters.map fun members => members.map fun i => (claims.get i).id

section Components

theorem overlap_comm (adjacency : Adjacency) (radius : Nat) (left right : RewardClaim) :
    overlap adjacency radius left right = overlap adjacency radius right left := by
  have swap (first second : ParticleSet) : first ∩ second = second ∩ first := by
    apply Std.ExtTreeSet.ext_mem
    intro particle
    rw [Std.ExtTreeSet.mem_inter_iff, Std.ExtTreeSet.mem_inter_iff, and_comm]
  rw [overlap, overlap, swap]

/-- The ε-supports of the claims at the two positions share a particle. -/
def Meets (claims : List RewardClaim) (adjacency : Adjacency) (radius : Nat)
    (i j : Fin claims.length) : Prop :=
  ∃ particle, particle ∈ epsilonSupport (claimParticles (claims.get i)) adjacency radius ∧
    particle ∈ epsilonSupport (claimParticles (claims.get j)) adjacency radius

instance (claims : List RewardClaim) (adjacency : Adjacency) (radius : Nat) :
    Std.Symm (Meets claims adjacency radius) where
  symm _ _ := fun ⟨particle, left, right⟩ => ⟨particle, right, left⟩

theorem overlap_iff (claims : List RewardClaim) (adjacency : Adjacency) (radius : Nat)
    (i j : Fin claims.length) :
    overlap adjacency radius (claims.get i) (claims.get j) = true ↔
      Meets claims adjacency radius i j := by
  rw [overlap, Bool.not_eq_true', Bool.eq_false_iff, Ne, Std.ExtTreeSet.isEmpty_inter_iff]
  simp only [not_forall, not_not, exists_prop]
  rfl

/-- The clusters are the connected components of claims whose supports meet: every
position is in one of them, and a chain connects the positions of one cluster. -/
theorem partition_is_components (claims : List RewardClaim) (adjacency : Adjacency)
    (radius : Nat) :
    let clusters := partitionIntoClusters claims adjacency radius
    clusters.flatten.Perm (List.finRange claims.length) ∧ (∀ members ∈ clusters, members ≠ []) ∧
      ∀ i j, (∃ members ∈ clusters, i ∈ members ∧ j ∈ members) ↔
        Relation.ReflTransGen (Meets claims adjacency radius) i j := by
  intro clusters
  refine ⟨Forest.sortedClasses_flatten _, fun _ => Forest.sortedClasses_ne_nil, fun i j => ?_⟩
  have united := Forest.mergeWhere_same
    (fun i j => overlap_comm adjacency radius (claims.get i) (claims.get j)) i j
  simp only [overlap_iff] at united
  change _ ↔ Relation.EqvGen (Meets claims adjacency radius) i j at united
  rw [Relation.EqvGen.eqvGen_eq_reflTransGen] at united
  exact (Forest.sortedClasses_together _ i j).trans united

end Components

section Order

variable {claims others : List RewardClaim} {adjacency : Adjacency} {radius : Nat}

/-- Two ids whose claims a chain of overlapping claims connects. -/
def SameCluster (claims : List RewardClaim) (adjacency : Adjacency) (radius : Nat)
    (a b : Particle) : Prop :=
  ∃ i j, (claims.get i).id = a ∧ (claims.get j).id = b ∧
    Relation.EqvGen (fun i j => overlap adjacency radius (claims.get i) (claims.get j) = true) i j

/-- A chain through the claims is one through every list that has them all. -/
theorem SameCluster.of_subset (known : claims ⊆ others) {a b : Particle}
    (same : SameCluster claims adjacency radius a b) : SameCluster others adjacency radius a b := by
  have place (i : Fin claims.length) : ∃ j, others.get j = claims.get i :=
    List.get_of_mem (known (List.get_mem claims i))
  choose index found using place
  obtain ⟨i, j, rfl, rfl, joined⟩ := same
  refine ⟨index i, index j, by rw [found], by rw [found], ?_⟩
  induction joined with
  | rel i j meets => exact .rel _ _ (by rwa [found, found])
  | refl i => exact .refl _
  | symm i j _ ih => exact .symm _ _ ih
  | trans i j k _ _ first second => exact .trans _ _ _ first second

theorem ids_injective (distinct : (claims.map RewardClaim.id).Nodup) :
    Function.Injective fun i => (claims.get i).id := by
  intro i j same
  have claim : claims.get i = claims.get j :=
    List.inj_on_of_nodup_map distinct (List.get_mem claims i) (List.get_mem claims j) same
  exact distinct.of_map.injective_get claim

/-- The partition lists the ids by the chains of overlapping claims. -/
theorem partition_listing (adjacency : Adjacency) (radius : Nat)
    (distinct : (claims.map RewardClaim.id).Nodup) :
    Listing (fun a => ∃ i, (claims.get i).id = a) (SameCluster claims adjacency radius)
      (idsOf claims (partitionIntoClusters claims adjacency radius)) := by
  have united (i j : Fin claims.length) :=
    Forest.mergeWhere_same
      (fun i j => overlap_comm adjacency radius (claims.get i) (claims.get j)) i j
  have listing := Forest.sortedClasses_listing (Forest.mergeWhere fun i j =>
    overlap adjacency radius (claims.get i) (claims.get j)) (ids_injective distinct)
  simp only [united] at listing
  exact listing

theorem clusterId_eq (hemera : Hemera) (clusters : List (List (Fin claims.length))) :
    clusters.map (clusterId hemera claims) = (idsOf claims clusters).map fun ids =>
      let sorted := ids.insertionSort (· ≤ ·)
      hemera.hash (strBytes "foculus-cluster-v0" ++ leBytes 8 sorted.length ++
        sorted.flatMap Vector.toList) := by
  rw [idsOf, List.map_map]
  rfl

theorem partition_ids (adjacency : Adjacency) (radius : Nat)
    (distinct : (claims.map RewardClaim.id).Nodup) (permuted : claims.Perm others) :
    idsOf claims (partitionIntoClusters claims adjacency radius) =
      idsOf others (partitionIntoClusters others adjacency radius) := by
  have listing := partition_listing adjacency radius
    ((permuted.map RewardClaim.id).nodup_iff.mp distinct)
  have named (a : Particle) : (∃ i, (others.get i).id = a) ↔ ∃ i, (claims.get i).id = a := by
    have byMember (list : List RewardClaim) :
        (∃ i, (list.get i).id = a) ↔ ∃ claim ∈ list, claim.id = a :=
      (List.exists_mem_iff_get (p := fun claim : RewardClaim => claim.id = a)).symm
    simp only [byMember, permuted.mem_iff]
  have clustered : SameCluster others adjacency radius = SameCluster claims adjacency radius := by
    funext a b
    exact propext ⟨.of_subset permuted.symm.subset, .of_subset permuted.subset⟩
  simp only [named, clustered] at listing
  exact (partition_listing adjacency radius distinct).unique listing

theorem partition_canonical (hemera : Hemera) (adjacency : Adjacency) (radius : Nat)
    (distinct : (claims.map RewardClaim.id).Nodup) (permuted : claims.Perm others) :
    idsOf claims (partitionIntoClusters claims adjacency radius) =
      idsOf others (partitionIntoClusters others adjacency radius) ∧
    (partitionIntoClusters claims adjacency radius).map (clusterId hemera claims) =
      (partitionIntoClusters others adjacency radius).map (clusterId hemera others) := by
  have same := partition_ids adjacency radius distinct permuted
  exact ⟨same, by rw [clusterId_eq, clusterId_eq, same]⟩

end Order

/-- A claim that names two particles. -/
def pairClaim (name left right : UInt8) : RewardClaim where
  id := Particle.padded [name]
  neuron := Particle.padded [name]
  links := [Tru.unit.stake (Particle.padded [left]) (Particle.padded [right]) 1]
  belief := Fx.one
  prediction := Fx.one

theorem partition_canonical_reversed :
    let forward := [pairClaim 1 10 11, pairClaim 2 20 21, pairClaim 3 30 31]
    let reversed := [pairClaim 3 30 31, pairClaim 2 20 21, pairClaim 1 10 11]
    let adjacency : Adjacency := (∅ : Adjacency).insert (Particle.padded [11]) [Particle.padded [30]]
    idsOf forward (partitionIntoClusters forward adjacency 1) =
      idsOf reversed (partitionIntoClusters reversed adjacency 1) ∧
    (partitionIntoClusters forward adjacency 1).map (clusterId Hemera.truncating forward) =
      (partitionIntoClusters reversed adjacency 1).map (clusterId Hemera.truncating reversed) := by
  intro forward reversed adjacency
  exact partition_canonical Hemera.truncating adjacency 1 (by decide +kernel)
    (List.reverse_perm reversed)

end Foculus.Settlement

import Foculus.Data.OrderedForest
import Mathlib.Data.List.Sort

namespace Foculus.Data

/-! Listing the classes of an equivalence in a canonical way.

Each class is a strictly sorted list, and the classes are sorted by their
smallest members.  The classes alone then determine the listing.
-/

/-- The first list starts with a smaller element. -/
def HeadLt [LT α] (left right : List α) : Prop :=
  ∃ a b, left.head? = some a ∧ right.head? = some b ∧ a < b

instance [LT α] [Std.Asymm (α := α) (· < ·)] : Std.Asymm (α := List α) HeadLt where
  asymm := by
    intro left right before after
    obtain ⟨a, b, first, second, order⟩ := before
    obtain ⟨c, d, third, fourth, other⟩ := after
    cases first.symm.trans fourth
    cases second.symm.trans third
    exact Std.Asymm.asymm a b order other

/-- `classes` lists the elements of `carrier` by the classes of `same`. -/
structure Listing [LT α] (carrier : α → Prop) (same : α → α → Prop)
    (classes : List (List α)) : Prop where
  sorted : ∀ members ∈ classes, members.Pairwise (· < ·)
  inhabited : ∀ members ∈ classes, members ≠ []
  covers : ∀ a, carrier a → ∃ members ∈ classes, a ∈ members
  exact : ∀ members ∈ classes, ∀ a ∈ members, carrier a ∧ ∀ b, b ∈ members ↔ carrier b ∧ same a b
  ordered : classes.Pairwise HeadLt

namespace Listing

variable [LT α] [Std.Asymm (α := α) (· < ·)] {carrier : α → Prop} {same : α → α → Prop} {left right : List (List α)}

theorem subset (leftListing : Listing carrier same left) (rightListing : Listing carrier same right)
    {members : List α} (listed : members ∈ left) : members ∈ right := by
  obtain ⟨a, member⟩ := List.exists_mem_of_ne_nil members (leftListing.inhabited members listed)
  obtain ⟨carried, here⟩ := leftListing.exact members listed a member
  obtain ⟨others, otherListed, otherMember⟩ := rightListing.covers a carried
  obtain ⟨_, there⟩ := rightListing.exact others otherListed a otherMember
  have equal : members = others :=
    (leftListing.sorted members listed).eq_of_mem_iff (rightListing.sorted others otherListed)
      fun b => (here b).trans (there b).symm
  exact equal ▸ otherListed

/-- There is only one listing. -/
theorem unique (leftListing : Listing carrier same left) (rightListing : Listing carrier same right) :
    left = right :=
  leftListing.ordered.eq_of_mem_iff rightListing.ordered fun _ =>
    ⟨leftListing.subset rightListing, rightListing.subset leftListing⟩

end Listing

/-! The trees of a forest, sorted by a key of their positions. -/

/-- The order of the first keys; a list without elements comes first. -/
def headLe [LE α] (key : ι → α) (left right : List ι) : Prop :=
  match left.head?, right.head? with
  | none, _ => True
  | some _, none => False
  | some i, some j => key i ≤ key j

instance [LE α] [DecidableLE α] (key : ι → α) : DecidableRel (headLe key) := fun left right => by
  unfold headLe
  cases left.head? <;> cases right.head? <;> infer_instance

section Sorting

variable [LE α] [Std.IsLinearOrder α] (key : ι → α)

instance key_total : Std.Total (fun i j => key i ≤ key j) := ⟨fun _ _ => Std.le_total⟩

instance key_trans : IsTrans ι (fun i j => key i ≤ key j) := ⟨fun _ _ _ => Std.le_trans⟩

instance : Std.Total (headLe key) where
  total left right := by
    unfold headLe
    cases left.head? with
    | none => exact .inl trivial
    | some i =>
        cases right.head? with
        | none => exact .inr trivial
        | some j => exact Std.le_total

instance : IsTrans (List ι) (headLe key) where
  trans first second third := by
    unfold headLe
    cases first.head? <;> cases second.head? <;> cases third.head? <;> simp
    exact Std.le_trans

variable {key} [LT α] [Std.LawfulOrderLT α]

theorem headLt_of_headLe (injective : Function.Injective key) {left right : List ι}
    (leftSome : left ≠ []) (rightSome : right ≠ []) (order : headLe key left right)
    (apart : ∀ i ∈ left, i ∉ right) : HeadLt (left.map key) (right.map key) := by
  cases left with
  | nil => exact absurd rfl leftSome
  | cons i left =>
      cases right with
      | nil => exact absurd rfl rightSome
      | cons j right =>
          have different : key i ≠ key j := by
            intro same
            exact apart i List.mem_cons_self (injective same ▸ List.mem_cons_self)
          exact ⟨key i, key j, rfl, rfl, Std.lt_of_le_of_ne order different⟩

theorem sorted_keys [DecidableLE α] (injective : Function.Injective key) {members : List ι}
    (distinct : members.Nodup) :
    ((members.insertionSort fun i j => key i ≤ key j).map key).Pairwise (· < ·) := by
  have order := List.pairwise_insertionSort (fun i j => key i ≤ key j) members
  have kept : (members.insertionSort fun i j => key i ≤ key j).Nodup :=
    (List.perm_insertionSort _ members).nodup_iff.mpr distinct
  rw [List.pairwise_map]
  refine (order.and kept).imp ?_
  intro i j pair
  obtain ⟨le, different⟩ := pair
  exact Std.lt_of_le_of_ne le (injective.ne different)

end Sorting

namespace Forest

variable {n : Nat}

/-- The trees of a forest: the positions of each by their keys, and the trees by
the keys of their first positions. -/
def sortedClasses [LE α] [DecidableLE α] (forest : Forest n) (key : Fin n → α) :
    List (List (Fin n)) :=
  let classes := forest.classes.map fun members => members.insertionSort fun i j => key i ≤ key j
  classes.insertionSort (headLe key)

variable [LE α] [DecidableLE α] {key : Fin n → α}

theorem mem_sortedClasses {forest : Forest n} {members : List (Fin n)} :
    members ∈ forest.sortedClasses key ↔
      ∃ cls ∈ forest.classes, cls.insertionSort (fun i j => key i ≤ key j) = members := by
  rw [sortedClasses, List.mem_insertionSort, List.mem_map]

theorem sortedClasses_ne_nil {forest : Forest n} {members : List (Fin n)}
    (listed : members ∈ forest.sortedClasses key) : members ≠ [] := by
  obtain ⟨cls, known, rfl⟩ := mem_sortedClasses.mp listed
  intro none_
  exact (forest.classes_exact known).1
    ((List.perm_insertionSort _ cls).symm.trans (.of_eq none_)).eq_nil

theorem sortedClasses_disjoint (forest : Forest n) :
    (forest.sortedClasses key).Pairwise fun left right => ∀ i ∈ left, i ∉ right := by
  refine List.Pairwise.perm ?_ (List.perm_insertionSort (headLe key) _).symm
    fun meets i inRight inLeft => meets i inLeft inRight
  rw [List.pairwise_map]
  simpa only [List.mem_insertionSort] using forest.classes_disjoint

/-- Every position is in exactly one class. -/
theorem sortedClasses_flatten (forest : Forest n) :
    (forest.sortedClasses key).flatten.Perm (List.finRange n) := by
  rw [List.perm_ext_iff_of_nodup _ (List.nodup_finRange n)]
  · intro i
    refine iff_of_true ?_ (List.mem_finRange i)
    obtain ⟨cls, known, member⟩ := forest.classes_cover i
    exact List.mem_flatten.mpr ⟨_, mem_sortedClasses.mpr ⟨cls, known, rfl⟩,
      (List.mem_insertionSort _).mpr member⟩
  · rw [List.nodup_flatten]
    constructor
    · intro members listed
      obtain ⟨cls, known, rfl⟩ := mem_sortedClasses.mp listed
      exact (List.perm_insertionSort _ cls).nodup_iff.mpr (forest.classes_exact known).2.1
    · exact forest.sortedClasses_disjoint.imp fun meets i left right => meets i left right

theorem sortedClasses_together (forest : Forest n) (i j : Fin n) :
    (∃ members ∈ forest.sortedClasses key, i ∈ members ∧ j ∈ members) ↔ forest.Same i j := by
  constructor
  · rintro ⟨members, listed, first, second⟩
    obtain ⟨cls, known, rfl⟩ := mem_sortedClasses.mp listed
    rw [List.mem_insertionSort] at first second
    exact ((forest.classes_exact known).2.2 i first j).mp second
  · intro same
    obtain ⟨cls, known, member⟩ := forest.classes_cover i
    have other := ((forest.classes_exact known).2.2 i member j).mpr same
    exact ⟨_, mem_sortedClasses.mpr ⟨cls, known, rfl⟩, (List.mem_insertionSort _).mpr member,
      (List.mem_insertionSort _).mpr other⟩

variable [Std.IsLinearOrder α] [LT α] [Std.LawfulOrderLT α]

theorem sortedClasses_ordered (forest : Forest n) (injective : Function.Injective key) :
    (forest.sortedClasses key).Pairwise fun left right => HeadLt (left.map key) (right.map key) := by
  have order : (forest.sortedClasses key).Pairwise (headLe key) :=
    List.pairwise_insertionSort (headLe key) _
  refine (order.and forest.sortedClasses_disjoint).imp_of_mem ?_
  intro left right leftListed rightListed pair
  obtain ⟨le, meets⟩ := pair
  exact headLt_of_headLe injective (sortedClasses_ne_nil leftListed)
    (sortedClasses_ne_nil rightListed) le meets

theorem sortedClasses_listing (forest : Forest n) (injective : Function.Injective key) :
    Listing (fun a => ∃ i, key i = a) (fun a b => ∃ i j, key i = a ∧ key j = b ∧ forest.Same i j)
      ((forest.sortedClasses key).map (·.map key)) := by
  constructor
  case sorted =>
    intro keys listed
    obtain ⟨members, sortedListed, rfl⟩ := List.mem_map.mp listed
    obtain ⟨cls, known, rfl⟩ := mem_sortedClasses.mp sortedListed
    exact sorted_keys injective (forest.classes_exact known).2.1
  case inhabited =>
    intro keys listed empty
    obtain ⟨members, sortedListed, rfl⟩ := List.mem_map.mp listed
    exact sortedClasses_ne_nil sortedListed (List.map_eq_nil_iff.mp empty)
  case covers =>
    intro a carried
    obtain ⟨i, rfl⟩ := carried
    obtain ⟨cls, known, member⟩ := forest.classes_cover i
    exact ⟨_, List.mem_map_of_mem (mem_sortedClasses.mpr ⟨cls, known, rfl⟩),
      List.mem_map_of_mem ((List.mem_insertionSort _).mpr member)⟩
  case exact =>
    intro keys listed a inside
    obtain ⟨members, sortedListed, rfl⟩ := List.mem_map.mp listed
    obtain ⟨cls, known, rfl⟩ := mem_sortedClasses.mp sortedListed
    obtain ⟨i, member, rfl⟩ := List.mem_map.mp inside
    have whole := (forest.classes_exact known).2.2 i ((List.mem_insertionSort _).mp member)
    refine ⟨⟨i, rfl⟩, fun b => ?_⟩
    simp only [List.mem_map, List.mem_insertionSort]
    constructor
    · intro here
      obtain ⟨j, other, rfl⟩ := here
      exact ⟨⟨j, rfl⟩, i, j, rfl, rfl, (whole j).mp other⟩
    · intro reached
      obtain ⟨_, here, j, keyed, rfl, same⟩ := reached
      cases injective keyed
      exact ⟨j, (whole j).mpr same, rfl⟩
  case ordered =>
    rw [List.pairwise_map]
    exact forest.sortedClasses_ordered injective

end Forest

end Foculus.Data

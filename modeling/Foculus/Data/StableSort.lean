import Foculus.Data.ClassListing

namespace Foculus.Data

/-! Stable sorting by a key.

Entries of one key keep their order, so what a stable sort makes of a list is
determined by its entries of each key, in the order in which they are listed.
-/

section AtKey

variable [DecidableEq κ] (key : α → κ)

/-- The entries of one key, in the order in which they are listed. -/
def atKey (value : κ) (entries : List α) : List α :=
  entries.filter fun entry => key entry = value

theorem atKey_cons (value : κ) (entry : α) (rest : List α) :
    atKey key value (entry :: rest) =
      if key entry = value then entry :: atKey key value rest else atKey key value rest := by
  rw [atKey, List.filter_cons]
  simp only [decide_eq_true_eq]
  rfl

theorem mem_atKey {value : κ} {entry : α} {entries : List α} :
    entry ∈ atKey key value entries ↔ entry ∈ entries ∧ key entry = value := by
  rw [atKey, List.mem_filter, decide_eq_true_eq]

variable {key}

theorem mem_of_atKey_eq {left right : List α}
    (same : ∀ value, atKey key value left = atKey key value right) {entry : α}
    (member : entry ∈ left) : entry ∈ right := by
  have here := (mem_atKey key).mpr ⟨member, rfl⟩
  rw [same] at here
  exact ((mem_atKey key).mp here).1

end AtKey

section StableSort

variable [LE κ] [DecidableLE κ]

def sortByKey (key : α → κ) (entries : List α) : List α :=
  entries.insertionSort fun left right => key left ≤ key right

theorem sortByKey_perm (key : α → κ) (entries : List α) :
    (sortByKey key entries).Perm entries :=
  List.perm_insertionSort _ entries

variable [Std.IsLinearOrder κ]

theorem sortByKey_pairwise (key : α → κ) (entries : List α) :
    (sortByKey key entries).Pairwise fun left right => key left ≤ key right :=
  List.pairwise_insertionSort _ entries

variable [DecidableEq κ] (key : α → κ)

theorem atKey_sortByKey (value : κ) (entries : List α) :
    atKey key value (sortByKey key entries) = atKey key value entries := by
  have level : (atKey key value entries).Pairwise fun left right => key left ≤ key right := by
    refine List.pairwise_of_forall_mem_list fun left leftMember right rightMember => ?_
    rw [((mem_atKey key).mp leftMember).2, ((mem_atKey key).mp rightMember).2]
    exact Std.le_refl value
  have kept : (atKey key value entries).Sublist (sortByKey key entries) :=
    List.sublist_insertionSort level List.filter_sublist
  have inside := kept.filter fun entry => decide (key entry = value)
  rw [atKey, List.filter_filter] at inside
  simp only [Bool.and_self] at inside
  refine (inside.eq_of_length ?_).symm
  exact ((sortByKey_perm key entries).filter _).length_eq.symm

variable {key}

omit [DecidableLE κ] in
/-- The least key stands first in both lists, and the first entry of that key is
the same. -/
theorem eq_of_atKey_eq {left right : List α}
    (leftSorted : left.Pairwise fun first second => key first ≤ key second)
    (rightSorted : right.Pairwise fun first second => key first ≤ key second)
    (same : ∀ value, atKey key value left = atKey key value right) : left = right := by
  induction left generalizing right with
  | nil =>
      cases right with
      | nil => rfl
      | cons other others =>
          cases mem_of_atKey_eq (fun value => (same value).symm) List.mem_cons_self
  | cons entry rest ih =>
      cases right with
      | nil => cases mem_of_atKey_eq same List.mem_cons_self
      | cons other others =>
          rw [List.pairwise_cons] at leftSorted rightSorted
          have below : key other ≤ key entry := by
            rcases List.mem_cons.mp (mem_of_atKey_eq same List.mem_cons_self) with rfl | later
            · exact Std.le_refl _
            · exact rightSorted.1 entry later
          have above : key entry ≤ key other := by
            have back := mem_of_atKey_eq (fun value => (same value).symm)
              (List.mem_cons_self (a := other) (l := others))
            rcases List.mem_cons.mp back with rfl | later
            · exact Std.le_refl _
            · exact leftSorted.1 other later
          have keys : key other = key entry := Std.le_antisymm below above
          have first := same (key entry)
          rw [atKey_cons, atKey_cons, if_pos rfl, if_pos keys, List.cons.injEq] at first
          obtain ⟨rfl, _⟩ := first
          have tails : ∀ value, atKey key value rest = atKey key value others := by
            intro value
            have both := same value
            rw [atKey_cons, atKey_cons] at both
            split_ifs at both
            · exact (List.cons.inj both).2
            · exact both
          rw [ih leftSorted.2 rightSorted.2 tails]

theorem sortByKey_eq_iff {left right : List α} :
    sortByKey key left = sortByKey key right ↔
      ∀ value, atKey key value left = atKey key value right := by
  constructor
  · intro same value
    rw [← atKey_sortByKey, same, atKey_sortByKey]
  · intro same
    refine eq_of_atKey_eq (sortByKey_pairwise key left) (sortByKey_pairwise key right) ?_
    intro value
    rw [atKey_sortByKey, atKey_sortByKey, same]

end StableSort

end Foculus.Data

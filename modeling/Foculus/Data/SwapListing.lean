import Mathlib.Data.List.FinRange
import Mathlib.Data.List.Nodup

namespace Foculus.Data

/-! # Listing all orders of a vector by swaps

The place at which the next swap is made is brought every entry from there on in
turn, and the places behind it are listed in the same way.
-/

variable {α : Type*} {n : Nat}

theorem first_late_place {left : Nat} (bound : left + 1 ≤ n) : n - (left + 1) < n := by
  omega

/-- The orders of a vector in which only the last `left` places may differ. -/
def arrangements : (left : Nat) → left ≤ n → Vector α n → List (List α)
  | 0, _, entries => [entries.toList]
  | left + 1, bound, entries =>
      ((List.finRange n).drop (n - (left + 1))).flatMap fun (i : Fin n) =>
        arrangements left (Nat.le_of_succ_le bound)
          (entries.swap (n - (left + 1)) i (first_late_place bound) i.isLt)

theorem mem_drop_finRange {k : Nat} {i : Fin n} : i ∈ (List.finRange n).drop k ↔ k ≤ i.val := by
  rw [List.mem_iff_getElem]
  constructor
  · rintro ⟨place, bound, rfl⟩
    simp
  · intro late
    refine ⟨i.val - k, by simp; omega, ?_⟩
    ext
    simp [Nat.add_sub_cancel' late]

section Swap

variable {entries : Vector α n} {k : Nat} {i : Fin n} {start : k < n}

theorem swap_toList_perm : (entries.swap k i start i.isLt).toList.Perm entries.toList :=
  (Vector.swap_perm start i.isLt).toList

theorem swap_toList_here :
    (entries.swap k i start i.isLt).toList[k]? = entries.toList[i.val]? := by
  rw [Vector.getElem?_toList, Vector.getElem?_toList, Vector.getElem?_eq_getElem start,
    Vector.getElem?_eq_getElem i.isLt, Vector.getElem_swap_left]

theorem swap_toList_before {place : Nat} (early : place < k) (late : k ≤ i.val) :
    (entries.swap k i start i.isLt).toList[place]? = entries.toList[place]? := by
  rw [Vector.getElem?_toList, Vector.getElem?_toList, Vector.getElem?_swap]
  rw [if_neg (by omega), if_neg (by omega)]

end Swap

/-- Where the first places are kept, the next entry comes from one of the places behind them. -/
theorem exists_late_place {entries : Vector α n} (distinct : entries.toList.Nodup) {order : List α}
    (perm : order.Perm entries.toList) {k : Nat} (start : k < n)
    (same : ∀ place < k, order[place]? = entries.toList[place]?) :
    ∃ i : Fin n, k ≤ i.val ∧ order[k]? = entries.toList[i.val]? := by
  have inOrder : k < order.length := by
    rw [perm.length_eq, Vector.length_toList]
    exact start
  obtain ⟨place, inside, found⟩ :=
    List.mem_iff_getElem.mp (perm.mem_iff.mp (List.getElem_mem inOrder))
  have placeBound : place < n := by rwa [Vector.length_toList] at inside
  refine ⟨⟨place, placeBound⟩, ?_, ?_⟩
  · -- an entry of the places that are kept would occur twice in the order
    by_contra behind
    have early : place < k := Nat.lt_of_not_le behind
    have kept := same place (by omega)
    rw [List.getElem?_eq_getElem inside, found, List.getElem?_eq_getElem (by omega),
      Option.some_inj, (perm.nodup_iff.mpr distinct).getElem_inj_iff] at kept
    omega
  · rw [List.getElem?_eq_getElem inOrder, List.getElem?_eq_getElem inside, found]

/-- An order is listed when it keeps the first places. -/
theorem mem_arrangements {left : Nat} (bound : left ≤ n) {entries : Vector α n}
    (distinct : entries.toList.Nodup) {order : List α} :
    order ∈ arrangements left bound entries ↔ order.Perm entries.toList ∧
      ∀ place < n - left, order[place]? = entries.toList[place]? := by
  induction left generalizing entries with
  | zero =>
      rw [arrangements, List.mem_singleton]
      constructor
      · rintro rfl
        exact ⟨.refl _, fun _ _ => rfl⟩
      · rintro ⟨perm, same⟩
        apply List.ext_getElem?
        intro place
        by_cases inside : place < n
        · exact same place inside
        · have length : order.length = n := by
            rw [perm.length_eq, Vector.length_toList]
          rw [List.getElem?_eq_none (by omega), List.getElem?_eq_none (by simp; omega)]
  | succ left ih =>
      have start : n - (left + 1) < n := by omega
      rw [arrangements, List.mem_flatMap]
      constructor
      · rintro ⟨i, brought, listed⟩
        rw [mem_drop_finRange] at brought
        obtain ⟨perm, same⟩ :=
          (ih (Nat.le_of_succ_le bound) (swap_toList_perm.nodup_iff.mpr distinct)).mp listed
        refine ⟨perm.trans swap_toList_perm, fun place early => ?_⟩
        rw [same place (by omega), swap_toList_before early brought]
      · rintro ⟨perm, same⟩
        obtain ⟨i, late, found⟩ := exists_late_place distinct perm start same
        refine ⟨i, mem_drop_finRange.mpr late, ?_⟩
        refine (ih (Nat.le_of_succ_le bound) (swap_toList_perm.nodup_iff.mpr distinct)).mpr
          ⟨perm.trans swap_toList_perm.symm, fun earlier before => ?_⟩
        rcases Nat.lt_or_eq_of_le (show earlier ≤ n - (left + 1) by omega) with early | rfl
        · rw [same earlier early, swap_toList_before early late]
        · rw [swap_toList_here, found]

theorem nodup_arrangements {left : Nat} (bound : left ≤ n) {entries : Vector α n}
    (distinct : entries.toList.Nodup) : (arrangements left bound entries).Nodup := by
  induction left generalizing entries with
  | zero => exact List.nodup_singleton _
  | succ left ih =>
      have start : n - (left + 1) < n := by omega
      have swapped : ∀ i : Fin n, (entries.swap (n - (left + 1)) i start i.isLt).toList.Nodup :=
        fun i => swap_toList_perm.nodup_iff.mpr distinct
      rw [arrangements, List.nodup_flatMap]
      refine ⟨fun i _ => ih _ (swapped i), ?_⟩
      refine ((List.nodup_finRange n).sublist (List.drop_sublist _ _)).imp ?_
      intro i j apart order first second
      apply apart
      have brought := ((mem_arrangements _ (swapped i)).mp first).2 (n - (left + 1)) (by omega)
      have also := ((mem_arrangements _ (swapped j)).mp second).2 (n - (left + 1)) (by omega)
      rw [swap_toList_here] at brought also
      have inside : i.val < entries.toList.length := by
        rw [Vector.length_toList]
        exact i.isLt
      exact Fin.ext ((List.getElem?_inj inside distinct).mp (brought.symm.trans also))

/-- All orders of a vector of distinct entries are listed. -/
theorem mem_arrangements_all {entries : Vector α n} (distinct : entries.toList.Nodup)
    {order : List α} : order ∈ arrangements n le_rfl entries ↔ order.Perm entries.toList := by
  rw [mem_arrangements le_rfl distinct, Nat.sub_self]
  exact and_iff_left fun _ before => absurd before (Nat.not_lt_zero _)

end Foculus.Data

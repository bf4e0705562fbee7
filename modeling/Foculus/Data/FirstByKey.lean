import Mathlib.Data.List.Induction
import Mathlib.Data.List.Nodup

namespace Foculus.Data

/-! The entries of a list whose key no earlier entry has.

This is what is left of a stream whose repetitions are discarded.  Streams that
share no key are filtered one by one.
-/

section FirstByKey

variable [DecidableEq κ] (key : α → κ)

def firstByKey (entries : List α) : List α :=
  entries.foldl (fun kept entry => if key entry ∈ kept.map key then kept else kept ++ [entry]) []

@[simp] theorem firstByKey_nil : firstByKey key [] = [] := rfl

theorem firstByKey_append_singleton (entries : List α) (entry : α) :
    firstByKey key (entries ++ [entry]) =
      if key entry ∈ (firstByKey key entries).map key then firstByKey key entries
      else firstByKey key entries ++ [entry] := by
  rw [firstByKey, List.foldl_append]
  rfl

variable {key}

theorem mem_keys_firstByKey {entries : List α} {value : κ} :
    value ∈ (firstByKey key entries).map key ↔ value ∈ entries.map key := by
  induction entries using List.reverseRecOn with
  | nil => rfl
  | append_singleton entries entry ih =>
      rw [firstByKey_append_singleton, List.map_append, List.mem_append, ← ih]
      split_ifs with known
      · simp only [List.map_cons, List.map_nil, List.mem_singleton]
        constructor
        · exact .inl
        · rintro (before | rfl)
          · exact before
          · exact known
      · rw [List.map_append, List.mem_append]

theorem firstByKey_of_known {entries : List α} {entry : α} (known : key entry ∈ entries.map key) :
    firstByKey key (entries ++ [entry]) = firstByKey key entries := by
  rw [firstByKey_append_singleton, if_pos (mem_keys_firstByKey.mpr known)]

theorem firstByKey_of_new {entries : List α} {entry : α} (new : key entry ∉ entries.map key) :
    firstByKey key (entries ++ [entry]) = firstByKey key entries ++ [entry] := by
  rw [firstByKey_append_singleton, if_neg (mt mem_keys_firstByKey.mp new)]

theorem firstByKey_append {left right : List α}
    (apart : ∀ value ∈ left.map key, value ∉ right.map key) :
    firstByKey key (left ++ right) = firstByKey key left ++ firstByKey key right := by
  induction right using List.reverseRecOn with
  | nil => simp
  | append_singleton right entry ih =>
      rw [List.map_append] at apart
      have earlier := ih fun value member other =>
        apart value member (List.mem_append_left _ other)
      have foreign : key entry ∉ left.map key := by
        intro member
        exact apart (key entry) member (by simp)
      rw [← List.append_assoc]
      by_cases known : key entry ∈ right.map key
      · have both : key entry ∈ (left ++ right).map key := by
          rw [List.map_append]
          exact List.mem_append_right _ known
        rw [firstByKey_of_known both, firstByKey_of_known known, earlier]
      · have neither : key entry ∉ (left ++ right).map key := by
          rw [List.map_append, List.mem_append, not_or]
          exact ⟨foreign, known⟩
        rw [firstByKey_of_new neither, firstByKey_of_new known, earlier, List.append_assoc]

theorem firstByKey_eq_nil_iff {entries : List α} : firstByKey key entries = [] ↔ entries = [] := by
  rw [← List.map_eq_nil_iff (f := key), ← List.map_eq_nil_iff (f := key) (l := entries),
    List.eq_nil_iff_forall_not_mem, List.eq_nil_iff_forall_not_mem]
  simp only [mem_keys_firstByKey]

end FirstByKey

end Foculus.Data

import Foculus.Erasure.RoundTrip

namespace Foculus.Erasure

open Data

/-! # Decoding shards that nobody vouches for

The general path checks every shard that it reads.  The fast path checks the
indices only, and reads as many groups from every shard as the first one has.
Neither compares the length that is asked for with what the groups hold. -/

section Lengths

theorem elementsToBytes_length (elements : List Goldilocks) (originalLen : Nat) :
    (elementsToBytes elements originalLen).length = min originalLen (7 * elements.length) := by
  rw [elementsToBytes, List.length_take, List.length_flatMap]
  simp [Nat.mul_comm]

/-- A group is scattered when every shard has an element of it. -/
theorem scatterGroup_isSome_iff {g : Nat} {poly : List Goldilocks} {shards : List Shard} :
    (scatterGroup g poly shards).isSome = true ↔ ∀ shard ∈ shards, g < shard.data.length := by
  induction shards generalizing poly with
  | nil => simp [scatterGroup]
  | cons shard rest ih =>
      rw [scatterGroup, List.forall_mem_cons]
      by_cases inside : g < shard.data.length
      · simp only [List.getElem?_eq_getElem inside, ih, inside, true_and]
      · simp [inside]

theorem mapM_isSome_iff {α β : Type} {step : α → Option β} {values : List α} :
    (values.mapM step).isSome = true ↔ ∀ value ∈ values, (step value).isSome = true := by
  induction values with
  | nil => simp
  | cons value rest ih =>
      rw [List.mapM_cons, List.forall_mem_cons, ← ih]
      cases step value <;> cases rest.mapM step <;> simp

theorem mapM_flatten_length {α β : Type} {step : α → Option (List β)} {values : List α}
    {results : List (List β)} {width : Nat} (mapped : values.mapM step = some results)
    (widths : ∀ value result, step value = some result → result.length = width) :
    results.flatten.length = width * values.length := by
  induction values generalizing results with
  | nil =>
      cases mapped
      rfl
  | cons value rest ih =>
      rw [List.mapM_cons] at mapped
      cases here : step value with
      | none => simp [here] at mapped
      | some result =>
          cases later : rest.mapM step with
          | none => simp [here, later] at mapped
          | some others =>
              simp only [here, later, Option.bind_eq_bind, Option.bind_some, Option.pure_def,
                Option.some.injEq] at mapped
              subst mapped
              rw [List.flatten_cons, List.length_append, ih later, widths value result here,
                List.length_cons, Nat.mul_succ, Nat.add_comm]

end Lengths

section Decode

variable {nebu : Nebu} {shards : List Shard} {k n groups originalLen : Nat} {bytes : List UInt8}

theorem decodeFullGroup_isSome_iff {g : Nat} :
    (decodeFullGroup nebu shards k n g).isSome = true ↔ ∀ shard ∈ shards, g < shard.data.length := by
  rw [decodeFullGroup, Option.isSome_map, scatterGroup_isSome_iff]

theorem decodeFullGroup_length {g : Nat} {group : List Goldilocks}
    (decoded : decodeFullGroup nebu shards k n g = some group) : group.length = k := by
  rw [decodeFullGroup, Option.map_eq_some_iff] at decoded
  obtain ⟨poly, _, rfl⟩ := decoded
  simp

theorem decodeFull_eq_panic_iff :
    decodeFull nebu shards k n groups originalLen = .panic ↔
      ∃ shard ∈ shards, shard.data.length < groups := by
  have all : ((List.range groups).mapM (decodeFullGroup nebu shards k n)).isSome = true ↔
      ∀ shard ∈ shards, groups ≤ shard.data.length := by
    simp only [mapM_isSome_iff, decodeFullGroup_isSome_iff, List.mem_range]
    constructor
    · intro inside shard member
      by_contra short
      exact Nat.lt_irrefl _ (inside shard.data.length (Nat.lt_of_not_le short) shard member)
    · intro enough g bound shard member
      exact Nat.lt_of_lt_of_le bound (enough shard member)
  have short : (∃ shard ∈ shards, shard.data.length < groups) ↔
      ¬ ∀ shard ∈ shards, groups ≤ shard.data.length := by
    simp only [not_forall, Nat.not_le, exists_prop]
  rw [short, ← all, decodeFull]
  cases (List.range groups).mapM (decodeFullGroup nebu shards k n) <;> simp

theorem decodeFull_ne_err {reason : String} :
    decodeFull nebu shards k n groups originalLen ≠ .err reason := by
  rw [decodeFull]
  cases (List.range groups).mapM (decodeFullGroup nebu shards k n) <;> simp

theorem decodeFull_length (decoded : decodeFull nebu shards k n groups originalLen = .ok bytes) :
    bytes.length = min originalLen (7 * (k * groups)) := by
  rw [decodeFull] at decoded
  cases mapped : (List.range groups).mapM (decodeFullGroup nebu shards k n) with
  | none => simp [mapped] at decoded
  | some results =>
      simp only [mapped, Outcome.expect_some, Outcome.ok_bind, Outcome.pure_eq,
        Outcome.ok.injEq] at decoded
      have total := mapM_flatten_length mapped fun _ _ => decodeFullGroup_length
      rw [List.length_range] at total
      rw [← decoded, elementsToBytes_length, total]

theorem decodeGroups_length (available : List Shard) (points : List Goldilocks) :
    ((List.range groups).flatMap (decodeGroup available points k)).length = k * groups := by
  simp [List.length_flatMap, decodeGroup, Nat.mul_comm]

/-- How many groups the first shard has. -/
def groupCount (shards : List Shard) : Nat := (shards.map fun shard => shard.data.length).headD 0

/-- All shards of the code are there, in any order. -/
def Complete (n : Nat) (shards : List Shard) : Prop := shards.length = n ∧ Distinct n shards

/-- Enough shards for one of the two paths to answer. -/
structure Decodable (shards : List Shard) (k n : Nat) : Prop where
  enough : k ≤ shards.length
  inhabited : shards ≠ []
  whole : Complete n shards → ∀ shard ∈ shards, groupCount shards ≤ shard.data.length
  partly : ¬ Complete n shards → Distinct n (shards.take k) ∧
    ∀ shard ∈ shards.take k, shard.data.length = groupCount shards

theorem decode_complete (power : isPowerOfTwo n = true) (enough : k ≤ shards.length)
    (inhabited : shards ≠ []) (complete : Complete n shards) :
    decode nebu shards k n originalLen =
      decodeFull nebu shards k n (groupCount shards) originalLen := by
  obtain ⟨first, rest, rfl⟩ := List.exists_cons_of_ne_nil inhabited
  have fast : ((first :: rest).length == n && isComplete (first :: rest) n) = true := by
    rw [Bool.and_eq_true, beq_iff_eq, isComplete_iff]
    exact ⟨complete.1, complete⟩
  simp only [decode, power, if_neg (Nat.not_lt.mpr enough), if_pos fast]
  rfl

theorem decode_incomplete (power : isPowerOfTwo n = true) (enough : k ≤ shards.length)
    (inhabited : shards ≠ []) (incomplete : ¬ Complete n shards) :
    decode nebu shards k n originalLen = (do
      checkAvailable n (groupCount shards) (List.replicate n false) (shards.take k)
      let points := (shards.take k).map fun shard => Goldilocks.rootOfUnity n ^ shard.index
      return elementsToBytes ((List.range (groupCount shards)).flatMap
        (decodeGroup (shards.take k) points k)) originalLen) := by
  obtain ⟨first, rest, rfl⟩ := List.exists_cons_of_ne_nil inhabited
  have slow : ¬ ((first :: rest).length == n && isComplete (first :: rest) n) = true := by
    rw [Bool.and_eq_true, isComplete_iff]
    exact fun both => incomplete both.2
  simp only [decode, power, if_neg (Nat.not_lt.mpr enough), if_neg slow]
  rfl

theorem decode_refuses (nebu : Nebu) (n originalLen : Nat)
    (refused : ¬ (k ≤ shards.length ∧ shards ≠ [])) :
    ∃ reason, decode nebu shards k n originalLen = .err reason := by
  by_cases uneven : isPowerOfTwo n = false
  · exact ⟨_, if_pos (by rw [uneven]; rfl)⟩
  by_cases few : shards.length < k
  · exact ⟨_, by simp only [decode, uneven, if_pos few]; rfl⟩
  · have none_ : shards = [] := by
      by_contra inhabited
      exact refused ⟨Nat.le_of_not_lt few, inhabited⟩
    subst none_
    exact ⟨_, by simp only [decode, uneven, if_neg few]; rfl⟩

theorem Complete.inhabited (power : isPowerOfTwo n = true) (complete : Complete n shards) :
    shards ≠ [] := by
  rintro rfl
  have zero : n = 0 := complete.1.symm
  rw [zero] at power
  cases power

/-- Of the two paths only the fast one can abort. -/
theorem decode_eq_panic_iff (power : isPowerOfTwo n = true) :
    decode nebu shards k n originalLen = .panic ↔ k ≤ shards.length ∧ Complete n shards ∧
      ∃ shard ∈ shards, shard.data.length < groupCount shards := by
  by_cases given : k ≤ shards.length ∧ shards ≠ []
  · obtain ⟨enough, inhabited⟩ := given
    by_cases complete : Complete n shards
    · rw [decode_complete power enough inhabited complete, decodeFull_eq_panic_iff]
      simp [enough, complete]
    · refine iff_of_false ?_ fun panics => complete panics.2.1
      rw [decode_incomplete power enough inhabited complete]
      cases checked : checkAvailable n (groupCount shards) (List.replicate n false)
          (shards.take k) with
      | ok _ => simp
      | err reason => simp
      | panic => exact absurd checked checkAvailable_ne_panic
  · obtain ⟨reason, refused⟩ := decode_refuses nebu n originalLen given
    refine iff_of_false (by simp [refused]) ?_
    rintro ⟨enough, complete, _⟩
    exact given ⟨enough, complete.inhabited power⟩

theorem decode_eq_ok_iff (power : isPowerOfTwo n = true) :
    (∃ bytes, decode nebu shards k n originalLen = .ok bytes) ↔ Decodable shards k n := by
  by_cases given : k ≤ shards.length ∧ shards ≠ []
  · obtain ⟨enough, inhabited⟩ := given
    by_cases complete : Complete n shards
    · have whole : Decodable shards k n ↔
          ∀ shard ∈ shards, groupCount shards ≤ shard.data.length :=
        ⟨fun decodable => decodable.whole complete,
          fun whole => ⟨enough, inhabited, fun _ => whole, fun incomplete => absurd complete incomplete⟩⟩
      rw [decode_complete power enough inhabited complete, whole]
      cases decoded : decodeFull nebu shards k n (groupCount shards) originalLen with
      | ok bytes =>
          refine iff_of_true ⟨bytes, rfl⟩ ?_
          have runs : decodeFull nebu shards k n (groupCount shards) originalLen ≠ .panic := by
            simp [decoded]
          simpa [decodeFull_eq_panic_iff] using runs
      | err reason => exact absurd decoded decodeFull_ne_err
      | panic =>
          refine iff_of_false (by simp) ?_
          obtain ⟨shard, member, short⟩ := decodeFull_eq_panic_iff.mp decoded
          intro whole
          exact Nat.not_lt.mpr (whole shard member) short
    · have partly : Decodable shards k n ↔ Distinct n (shards.take k) ∧
          ∀ shard ∈ shards.take k, shard.data.length = groupCount shards :=
        ⟨fun decodable => decodable.partly complete,
          fun partly => ⟨enough, inhabited, fun whole => absurd whole complete, fun _ => partly⟩⟩
      rw [decode_incomplete power enough inhabited complete, partly, ← isCompleteFrom_start,
        ← checkAvailable_eq_ok_iff]
      cases checkAvailable n (groupCount shards) (List.replicate n false) (shards.take k) <;> simp
  · obtain ⟨reason, refused⟩ := decode_refuses nebu n originalLen given
    refine iff_of_false (by simp [refused]) ?_
    intro decodable
    exact given ⟨decodable.enough, decodable.inhabited⟩

theorem decode_length (power : isPowerOfTwo n = true)
    (decoded : decode nebu shards k n originalLen = .ok bytes) :
    bytes.length = min originalLen (7 * (k * groupCount shards)) := by
  obtain ⟨enough, inhabited, _, _⟩ := (decode_eq_ok_iff power).mp ⟨bytes, decoded⟩
  by_cases complete : Complete n shards
  · rw [decode_complete power enough inhabited complete] at decoded
    exact decodeFull_length decoded
  · rw [decode_incomplete power enough inhabited complete] at decoded
    cases checked : checkAvailable n (groupCount shards) (List.replicate n false)
        (shards.take k) with
    | ok _ =>
        simp only [checked, Outcome.ok_bind, Outcome.pure_eq, Outcome.ok.injEq] at decoded
        rw [← decoded, elementsToBytes_length, decodeGroups_length]
    | err reason => simp [checked] at decoded
    | panic => simp [checked] at decoded

end Decode

/-- Decoding neither aborts nor returns too few bytes, exactly when a complete
set of shards has no shard that is shorter than the first one, and the groups of
what can be decoded hold as many bytes as are asked for. -/
theorem decode_answers_iff (nebu : Nebu) (shards : List Shard) (k n originalLen : Nat)
    (power : isPowerOfTwo n = true) :
    (decode nebu shards k n originalLen ≠ .panic ∧
      ∀ bytes, decode nebu shards k n originalLen = .ok bytes → bytes.length = originalLen) ↔
    ¬ (k ≤ shards.length ∧ Complete n shards ∧
        ∃ shard ∈ shards, shard.data.length < groupCount shards) ∧
      (Decodable shards k n → originalLen ≤ 7 * (k * groupCount shards)) := by
  rw [Ne, decode_eq_panic_iff power]
  refine and_congr_right fun _ => ?_
  constructor
  · intro exact decodable
    obtain ⟨bytes, decoded⟩ := (decode_eq_ok_iff power).mpr decodable
    have length := decode_length power decoded
    rw [exact bytes decoded] at length
    omega
  · intro holds bytes decoded
    have length := decode_length power decoded
    have enough := holds ((decode_eq_ok_iff power).mp ⟨bytes, decoded⟩)
    omega

theorem decode_answers_iff_two_shards :
    ∃ bytes, decode naiveNebu [⟨1, [5]⟩, ⟨0, [5]⟩] 1 2 7 = .ok bytes ∧ bytes.length = 7 := by
  have answers := decode_answers_iff naiveNebu [⟨1, [5]⟩, ⟨0, [5]⟩] 1 2 7 (by decide)
  have level : ¬ (1 ≤ 2 ∧ Complete 2 [⟨1, [5]⟩, ⟨0, [5]⟩] ∧
      ∃ shard ∈ [(⟨1, [5]⟩ : Shard), ⟨0, [5]⟩],
        shard.data.length < groupCount [⟨1, [5]⟩, ⟨0, [5]⟩]) := by
    rintro ⟨-, -, shard, member, short⟩
    revert shard
    decide
  have complete : Complete 2 [⟨1, [5]⟩, ⟨0, [5]⟩] := ⟨rfl, by decide, by decide⟩
  have decodable : Decodable [⟨1, [5]⟩, ⟨0, [5]⟩] 1 2 :=
    ⟨by decide, by decide, fun _ => by decide, fun partly => absurd complete partly⟩
  obtain ⟨bytes, decoded⟩ := (decode_eq_ok_iff (by decide)).mpr decodable
  exact ⟨bytes, decoded, (answers.mpr ⟨level, fun _ => by decide⟩).2 bytes decoded⟩

/-- A second shard that is shorter than the first aborts the fast path; without
groups nothing is returned for five bytes. -/
theorem decode_aborts_or_falls_short :
    decode naiveNebu [⟨0, [5]⟩, ⟨1, []⟩] 1 2 7 = .panic ∧
    decode naiveNebu [⟨0, []⟩, ⟨1, []⟩] 1 2 5 = .ok [] := by
  decide +kernel

end Foculus.Erasure

import Foculus.Erasure.Indices
import Foculus.Erasure.Lagrange

namespace Foculus.Erasure

open Data Polynomial

section Packing

private theorem chunks_cons {data : List UInt8} (nonempty : data ≠ []) :
    chunks data = data.take 7 :: chunks (data.drop 7) := by
  have positive : 0 < data.length := List.length_pos_iff.mpr nonempty
  have count : (data.length + 6) / 7 = (data.length - 7 + 6) / 7 + 1 := by omega
  unfold chunks
  rw [List.length_drop, count, List.range_succ_eq_map, List.map_cons, List.map_map]
  simp only [Nat.mul_zero, List.drop_zero, List.cons.injEq, true_and]
  refine List.map_congr_left fun chunk _ => ?_
  simp only [Function.comp_apply, List.drop_drop]
  congr 2
  omega

/-- Unpacking the packed chunks restores the data up to trailing zero bytes:
only the last chunk can be short. -/
theorem unpack_chunks (data : List UInt8) :
    ∃ slack, (chunks data).flatMap (fun chunk => leBytes 7 (ofLeBytes chunk)) =
      data ++ List.replicate slack 0 := by
  induction size : data.length using Nat.strong_induction_on generalizing data with
  | _ size ih =>
      subst size
      by_cases empty : data = []
      · subst data
        exact ⟨0, rfl⟩
      · have positive : 0 < data.length := List.length_pos_iff.mpr empty
        obtain ⟨slack, unpacked⟩ := ih (data.drop 7).length
          (by rw [List.length_drop]; omega) (data.drop 7) rfl
        rw [chunks_cons empty, List.flatMap_cons, unpacked]
        by_cases whole : 7 ≤ data.length
        · have first := leBytes_ofLeBytes (data.take 7) 0
          rw [List.length_take, Nat.min_eq_left whole] at first
          refine ⟨slack, ?_⟩
          rw [first, List.replicate_zero, List.append_nil, ← List.append_assoc,
            List.take_append_drop]
        · have first := leBytes_ofLeBytes (data.take 7) (7 - data.length)
          have all : data.take 7 = data := List.take_of_length_le (by omega)
          have none : data.drop 7 = [] := List.drop_eq_nil_of_le (by omega)
          rw [all, show data.length + (7 - data.length) = 7 by omega] at first
          refine ⟨7 - data.length + slack, ?_⟩
          rw [all, none, first, List.nil_append, List.append_assoc, List.replicate_append_replicate]

private theorem chunk_value_lt {data chunk : List UInt8} (member : chunk ∈ chunks data) :
    ofLeBytes chunk < P := by
  obtain ⟨index, _, rfl⟩ := List.mem_map.mp member
  have width : ((data.drop (7 * index)).take 7).length ≤ 7 := List.length_take_le ..
  calc ofLeBytes ((data.drop (7 * index)).take 7)
      < 256 ^ ((data.drop (7 * index)).take 7).length := ofLeBytes_lt _
    _ ≤ 256 ^ 7 := Nat.pow_le_pow_right (by norm_num) width
    _ < P := by norm_num

theorem elementsToBytes_padded (data : List UInt8) (padding : Nat) :
    elementsToBytes (bytesToElements data ++ List.replicate padding 0) data.length = data := by
  obtain ⟨slack, unpacked⟩ := unpack_chunks data
  have packed : (bytesToElements data).flatMap
      (fun element => (List.range 7).map fun lane => UInt8.ofNat (element.asU64 >>> (lane * 8))) =
      data ++ List.replicate slack 0 := by
    rw [← unpacked, bytesToElements, List.flatMap_map]
    refine List.flatMap_congr fun chunk member => ?_
    rw [map_shifted_eq_leBytes, orShifted_eq, Goldilocks.asU64_new (chunk_value_lt member)]
  rw [elementsToBytes, List.flatMap_append, packed, List.append_assoc, List.take_left]

end Packing

section Groups

def groupCoeffs (padded : List Goldilocks) (k g : Nat) : List Goldilocks :=
  (List.range k).map fun i => padded.getD (g * k + i) 0

@[simp] theorem groupCoeffs_length (padded : List Goldilocks) (k g : Nat) :
    (groupCoeffs padded k g).length = k := by
  simp [groupCoeffs]

theorem groupCoeffs_read (padded slack : List Goldilocks) (k g : Nat) :
    ((List.range k).map fun i => (groupCoeffs padded k g ++ slack).getD i 0) =
      groupCoeffs padded k g := by
  apply List.ext_getElem (by simp)
  intro i _ bound
  simp only [List.getElem_map, List.getElem_range]
  rw [List.getD_append _ _ _ _ bound, List.getD_eq_getElem _ _ bound]

theorem groupCoeffs_flatMap {padded : List Goldilocks} {k : Nat} (count : Nat)
    (bound : count * k ≤ padded.length) :
    (List.range count).flatMap (groupCoeffs padded k) = padded.take (count * k) := by
  induction count with
  | zero => simp
  | succ count ih =>
      have roomHere : count * k + k ≤ padded.length := by rwa [Nat.succ_mul] at bound
      have group : groupCoeffs padded k count = (padded.drop (count * k)).take k := by
        apply List.ext_getElem
        · simp only [groupCoeffs_length, List.length_take, List.length_drop]
          omega
        · intro i inside _
          have within : count * k + i < padded.length := by
            rw [groupCoeffs_length] at inside
            omega
          simp [groupCoeffs, within]
      rw [List.range_succ, List.flatMap_append, ih (by omega), List.flatMap_singleton, group,
        Nat.succ_mul, List.take_add]

private theorem foldl_set_range (value : Nat → Goldilocks) {k n : Nat} (bound : k ≤ n) :
    (List.range k).foldl (fun poly i => poly.set i (value i)) (List.replicate n 0) =
      (List.range k).map value ++ List.replicate (n - k) 0 := by
  induction k with
  | zero => simp
  | succ k ih =>
      have rest : n - k = n - (k + 1) + 1 := by omega
      rw [List.range_succ, List.foldl_append, ih (by omega), List.foldl_cons, List.foldl_nil,
        List.map_append, rest, List.replicate_succ]
      simp

theorem groupPoly_eq (padded : List Goldilocks) {k n : Nat} (g : Nat) (bound : k ≤ n) :
    groupPoly padded k n g = groupCoeffs padded k g ++ List.replicate (n - k) 0 :=
  foldl_set_range _ bound

theorem groupPoly_length (padded : List Goldilocks) {k n : Nat} (g : Nat) (bound : k ≤ n) :
    (groupPoly padded k n g).length = n := by
  rw [groupPoly_eq padded g bound, List.length_append, groupCoeffs_length, List.length_replicate]
  omega

noncomputable def sample (padded : List Goldilocks) (k n g index : Nat) : Goldilocks :=
  (listPoly (groupCoeffs padded k g)).eval (Goldilocks.rootOfUnity n ^ index)

theorem ntt_groupPoly {nebu : Nebu} (lawful : nebu.Lawful) (padded : List Goldilocks) {k n : Nat}
    (g : Nat) (size : Goldilocks.TransformSize n) (bound : k ≤ n) :
    nebu.ntt (groupPoly padded k n g) = (List.range n).map (sample padded k n g) := by
  have length := groupPoly_length padded g bound
  rw [lawful.ntt_evaluates _ (by rwa [length]), length]
  refine List.map_congr_left fun index _ => ?_
  rw [groupPoly_eq padded g bound, listPoly_append_zeros, sample]

end Groups

section Encoding

noncomputable def sampledShard (padded : List Goldilocks) (k n groups index : Nat) : Shard :=
  { index, data := (List.range groups).map fun g => sample padded k n g index }

theorem foldl_pushGroup {nebu : Nebu} (lawful : nebu.Lawful) (padded : List Goldilocks)
    {k n : Nat} (size : Goldilocks.TransformSize n) (bound : k ≤ n) (groups : Nat) :
    (List.range groups).foldl (pushGroup nebu padded k n)
        ((List.range n).map fun i => { index := i, data := [] }) =
      (List.range n).map (sampledShard padded k n groups) := by
  induction groups with
  | zero => simp [sampledShard]
  | succ groups ih =>
      rw [List.range_succ, List.foldl_append, ih, List.foldl_cons, List.foldl_nil, pushGroup,
        ntt_groupPoly lawful padded groups size bound]
      apply List.ext_getElem (by simp)
      intro index _ inside
      have within : index < n := by simpa using inside
      simp [sampledShard, within, List.range_succ]

theorem TransformSize_of_isPowerOfTwo {n : Nat} (power : isPowerOfTwo n = true)
    (bound : n ≤ 2 ^ 32) : Goldilocks.TransformSize n := by
  simp only [isPowerOfTwo, Bool.and_eq_true, bne_iff_ne, ne_eq, beq_iff_eq] at power
  refine ⟨n.log2, ?_, power.2.symm⟩
  rw [← power.2] at bound
  exact (Nat.pow_le_pow_iff_right (by norm_num)).mp bound

/-- What `encode` returns: no assertion fails and every shard holds the samples
of all groups of the padded elements. -/
theorem encode_eq {nebu : Nebu} (lawful : nebu.Lawful) (data : List UInt8) {k n : Nat}
    (power : isPowerOfTwo n = true) (bound : n ≤ 2 ^ 32) (positive : 1 ≤ k) (threshold : k ≤ n) :
    ∃ groups padding, (bytesToElements data).length + padding = groups * k ∧
      encode nebu data k n = some ((List.range n).map
        (sampledShard (bytesToElements data ++ List.replicate padding 0) k n groups)) := by
  let elements := bytesToElements data
  let groups := (elements.length + k - 1) / k
  have enough : elements.length ≤ groups * k := by
    have remainder := Nat.div_add_mod (elements.length + k - 1) k
    have small := Nat.mod_lt (elements.length + k - 1) positive
    have commuted : k * ((elements.length + k - 1) / k) = groups * k := Nat.mul_comm ..
    omega
  have padded : resize elements (groups * k) =
      elements ++ List.replicate (groups * k - elements.length) 0 := by
    rw [resize, List.take_of_length_le enough]
  refine ⟨groups, groups * k - elements.length, Nat.add_sub_cancel' enough, ?_⟩
  have size := TransformSize_of_isPowerOfTwo power bound
  have pushed := foldl_pushGroup lawful (resize elements (groups * k)) size threshold groups
  simp only [encode, power, Bool.not_true, Bool.false_eq_true, if_false, positive, threshold,
    decide_true, Bool.and_self]
  rw [← padded, ← pushed]

end Encoding

section Decoding

variable {padded : List Goldilocks} {k n groups : Nat}

/-- A sub-collection of the encoded shards, in any order. -/
def Sampled (padded : List Goldilocks) (k n groups : Nat) (shards : List Shard) : Prop :=
  ∀ shard ∈ shards, shard.index < n ∧ shard = sampledShard padded k n groups shard.index

theorem Sampled.length {shards : List Shard} (sampled : Sampled padded k n groups shards)
    {shard : Shard} (member : shard ∈ shards) : shard.data.length = groups := by
  rw [(sampled shard member).2]
  simp [sampledShard]

theorem Sampled.getElem? {shards : List Shard} (sampled : Sampled padded k n groups shards)
    {shard : Shard} (member : shard ∈ shards) {g : Nat} (inside : g < groups) :
    shard.data[g]? = some (sample padded k n g shard.index) := by
  rw [(sampled shard member).2]
  simp [sampledShard, inside]

theorem Sampled.checkAvailable {shards : List Shard} (sampled : Sampled padded k n groups shards)
    (distinct : (shards.map Shard.index).Nodup) :
    Erasure.checkAvailable n groups (List.replicate n false) shards = .ok () := by
  refine checkAvailable_eq_ok_iff.mpr ⟨isCompleteFrom_start.mpr ⟨?_, distinct⟩, ?_⟩
  · exact fun shard member => (sampled shard member).1
  · exact fun shard member => sampled.length member

theorem decodeGroup_eq {available : List Shard} (size : Goldilocks.TransformSize n)
    (sampled : Sampled padded k n groups available) (count : available.length = k)
    (distinct : (available.map Shard.index).Nodup) {g : Nat} (inside : g < groups) :
    decodeGroup available (available.map fun shard => Goldilocks.rootOfUnity n ^ shard.index) k g =
      groupCoeffs padded k g := by
  let points := available.map fun shard => Goldilocks.rootOfUnity n ^ shard.index
  have pointsDistinct : points.Nodup := by
    have mapped : points = (available.map Shard.index).map (Goldilocks.rootOfUnity n ^ ·) := by
      simp [points, Function.comp_def]
    rw [mapped]
    refine List.Nodup.map_on ?_ distinct
    intro left leftMember right rightMember same
    obtain ⟨leftShard, leftIn, rfl⟩ := List.mem_map.mp leftMember
    obtain ⟨rightShard, rightIn, rfl⟩ := List.mem_map.mp rightMember
    exact Goldilocks.rootOfUnity_pow_inj size (sampled leftShard leftIn).1
      (sampled rightShard rightIn).1 same
  have values : (available.map fun shard => shard.data.getD g 0) =
      points.map fun point => (listPoly (groupCoeffs padded k g)).eval point := by
    rw [List.map_map]
    refine List.map_congr_left fun shard member => ?_
    rw [List.getD_eq_getElem?_getD, sampled.getElem? member inside]
    rfl
  have width : (groupCoeffs padded k g).length = points.length := by simp [points, count]
  unfold decodeGroup
  rw [values, lagrangeInterpolate_samples pointsDistinct width]
  simpa using groupCoeffs_read padded [] k g

theorem scatterGroup_eq {shards : List Shard} (poly : List Goldilocks)
    (sampled : Sampled padded k n groups shards) (width : poly.length = n) {g : Nat}
    (inside : g < groups) :
    ∃ result, scatterGroup g poly shards = some result ∧ result.length = n ∧
      ∀ index < n, result.getD index 0 =
        if index ∈ shards.map Shard.index then sample padded k n g index
        else poly.getD index 0 := by
  induction shards generalizing poly with
  | nil => exact ⟨poly, rfl, width, by simp⟩
  | cons shard rest ih =>
      obtain ⟨bound, _⟩ := sampled shard (by simp)
      have value := sampled.getElem? (show shard ∈ shard :: rest by simp) inside
      obtain ⟨result, scattered, length, entries⟩ :=
        ih (poly.set shard.index (sample padded k n g shard.index))
          (fun other member => sampled other (by simp [member])) (by simpa using width)
      refine ⟨result, by simp only [scatterGroup, value, scattered], length, ?_⟩
      intro index indexBound
      rw [entries index indexBound]
      by_cases later : index ∈ rest.map Shard.index
      · simp [later]
      · rw [if_neg later]
        by_cases here : index = shard.index
        · subst index
          simp [width, bound]
        · have elsewhere : index ∉ (shard :: rest).map Shard.index := by
            simp only [List.map_cons, List.mem_cons, not_or]
            exact ⟨here, later⟩
          rw [if_neg elsewhere]
          simp [List.getD_eq_getElem?_getD, Ne.symm here]

/-- With all `n` shards present the scattered buffer is the transform of the
group, so the inverse transform returns its coefficients. -/
theorem decodeFullGroup_eq {nebu : Nebu} (lawful : nebu.Lawful) {shards : List Shard}
    (size : Goldilocks.TransformSize n) (threshold : k ≤ n)
    (sampled : Sampled padded k n groups shards) (count : shards.length = n)
    (distinct : (shards.map Shard.index).Nodup) {g : Nat} (inside : g < groups) :
    decodeFullGroup nebu shards k n g = some (groupCoeffs padded k g) := by
  have covered : ∀ index < n, index ∈ shards.map Shard.index := by
    have below : shards.map Shard.index ⊆ List.range n := by
      intro index member
      obtain ⟨shard, shardMember, rfl⟩ := List.mem_map.mp member
      exact List.mem_range.mpr (sampled shard shardMember).1
    have permutes : (shards.map Shard.index).Perm (List.range n) :=
      (distinct.subperm below).perm_of_length_le (by simp [count])
    intro index bound
    exact permutes.mem_iff.mpr (List.mem_range.mpr bound)
  obtain ⟨result, scattered, length, entries⟩ :=
    scatterGroup_eq (List.replicate n 0) sampled (by simp) inside
  have transformed : result = nebu.ntt (groupPoly padded k n g) := by
    rw [ntt_groupPoly lawful padded g size threshold]
    apply List.ext_getElem (by simp [length])
    intro index bound _
    have within : index < n := by rwa [length] at bound
    have entry := entries index within
    rw [if_pos (covered index within), List.getD_eq_getElem _ _ bound] at entry
    simpa using entry
  have restored : nebu.intt result = groupCoeffs padded k g ++ List.replicate (n - k) 0 := by
    rw [transformed, lawful.intt_inverts _ (by rwa [groupPoly_length padded g threshold]),
      groupPoly_eq padded g threshold]
  rw [decodeFullGroup, scattered, Option.map_some, restored]
  exact congrArg some (groupCoeffs_read padded _ k g)

private theorem mapM_some {α β : Type} {step : α → Option β} {result : α → β} (values : List α)
    (each : ∀ value ∈ values, step value = some (result value)) :
    values.mapM step = some (values.map result) := by
  induction values with
  | nil => rfl
  | cons value rest ih =>
      rw [List.mapM_cons, each value (by simp), ih fun other member => each other (by simp [member])]
      rfl

end Decoding

theorem encode_params {nebu : Nebu} {data : List UInt8} {k n : Nat} {encoded : List Shard}
    (coded : encode nebu data k n = some encoded) :
    isPowerOfTwo n = true ∧ 1 ≤ k ∧ k ≤ n := by
  simp only [encode] at coded
  split_ifs at coded with uneven outside
  refine ⟨by simpa using uneven, ?_⟩
  simpa [Nat.one_le_iff_ne_zero] using outside

/-- The assertions of `encode` are about the parameters only. -/
theorem encode_eq_none_iff {nebu : Nebu} {data : List UInt8} {k n : Nat} :
    encode nebu data k n = none ↔ ¬ (isPowerOfTwo n = true ∧ 1 ≤ k ∧ k ≤ n) := by
  cases coded : encode nebu data k n with
  | some encoded =>
      have params := encode_params coded
      simp [params]
  | none =>
      simp only [true_iff]
      rintro ⟨power, positive, threshold⟩
      simp [encode, power, positive, threshold] at coded

theorem foldl_pushGroup_data (nebu : Nebu) (padded : List Goldilocks) (k n size : Nat)
    (groups : List Nat) {shards : List Shard} (same : ∀ shard ∈ shards, shard.data.length = size) :
    ∀ shard ∈ groups.foldl (pushGroup nebu padded k n) shards,
      shard.data.length = size + groups.length := by
  induction groups generalizing shards size with
  | nil => exact same
  | cons g rest ih =>
      have pushed : ∀ shard ∈ pushGroup nebu padded k n shards g, shard.data.length = size + 1 := by
        intro shard member
        obtain ⟨⟨before, s⟩, found, rfl⟩ := List.mem_map.mp member
        have member := List.fst_mem_of_mem_zipIdx found
        simp [same before member]
      intro shard member
      rw [ih (size + 1) pushed shard member, List.length_cons]
      omega

/-- Every shard has an element for each group of the data. -/
theorem encode_data_length {nebu : Nebu} {data : List UInt8} {k n : Nat} {encoded : List Shard}
    (coded : encode nebu data k n = some encoded) {shard : Shard} (member : shard ∈ encoded) :
    shard.data.length = ((bytesToElements data).length + k - 1) / k := by
  simp only [encode] at coded
  split_ifs at coded
  cases coded
  have empty : ∀ shard ∈ (List.range n).map fun i => ({ index := i, data := [] } : Shard),
      shard.data.length = 0 := by
    intro shard member
    obtain ⟨index, -, rfl⟩ := List.mem_map.mp member
    rfl
  rw [foldl_pushGroup_data nebu _ k n 0 _ empty shard member, Nat.zero_add, List.length_range]

theorem foldl_pushGroup_indices (nebu : Nebu) (padded : List Goldilocks) (k n : Nat)
    (groups : List Nat) (shards : List Shard) :
    (groups.foldl (pushGroup nebu padded k n) shards).map Shard.index = shards.map Shard.index := by
  induction groups generalizing shards with
  | nil => rfl
  | cons g rest ih =>
      rw [List.foldl_cons, ih, pushGroup, List.map_map]
      conv_rhs => rw [← List.zipIdx_map_fst 0 shards, List.map_map]
      rfl

theorem encode_indices {nebu : Nebu} {data : List UInt8} {k n : Nat} {encoded : List Shard}
    (coded : encode nebu data k n = some encoded) : encoded.map Shard.index = List.range n := by
  simp only [encode] at coded
  split_ifs at coded
  cases coded
  rw [foldl_pushGroup_indices, List.map_map]
  exact List.map_id _

/-- What `encode` returns: shard `i` at position `i`, and any `k` of the shards
determine the data. -/
structure Codeword (nebu : Nebu) (data : List UInt8) (k n : Nat) (encoded : List Shard) :
    Prop where
  indices : encoded.map Shard.index = List.range n
  decodes : ∀ shards : List Shard, (∀ shard ∈ shards, shard ∈ encoded) →
    (shards.map Shard.index).Nodup → k ≤ shards.length → decode nebu shards k n data.length = .ok data

theorem Codeword.length {nebu : Nebu} {data : List UInt8} {k n : Nat} {encoded : List Shard}
    (codeword : Codeword nebu data k n encoded) : encoded.length = n := by
  have lengths := congrArg List.length codeword.indices
  simpa using lengths

theorem Codeword.index_eq {nebu : Nebu} {data : List UInt8} {k n : Nat} {encoded : List Shard}
    (codeword : Codeword nebu data k n encoded) {i : Nat} {shard : Shard}
    (found : encoded[i]? = some shard) : shard.index = i := by
  have position := congrArg (fun indices => indices[i]?) codeword.indices
  simp only [List.getElem?_map, found, Option.map_some] at position
  obtain ⟨bound, _⟩ := List.getElem?_eq_some_iff.mp found
  rw [codeword.length] at bound
  rw [List.getElem?_range bound] at position
  exact Option.some.inj position

theorem encode_codeword {nebu : Nebu} (lawful : nebu.Lawful) {data : List UInt8} {k n : Nat}
    (bound : n ≤ 2 ^ 32) {encoded : List Shard} (coded : encode nebu data k n = some encoded) :
    Codeword nebu data k n encoded := by
  obtain ⟨power, positive, threshold⟩ := encode_params coded
  obtain ⟨groups, padding, filled, shape⟩ :=
    encode_eq lawful data power bound positive threshold
  rw [coded] at shape
  cases Option.some.inj shape
  refine ⟨by simp [sampledShard, Function.comp_def], ?_⟩
  intro shards members distinct enough
  let padded := bytesToElements data ++ List.replicate padding 0
  have size := TransformSize_of_isPowerOfTwo power bound
  have sampled : Sampled padded k n groups shards := by
    intro shard member
    obtain ⟨index, indexBound, rfl⟩ := List.mem_map.mp (members shard member)
    exact ⟨List.mem_range.mp indexBound, rfl⟩
  have whole : (List.range groups).flatMap (groupCoeffs padded k) = padded := by
    have paddedLength : padded.length = groups * k := by simpa [padded] using filled
    rw [groupCoeffs_flatMap groups (by omega), ← paddedLength, List.take_length]
  have bytes : elementsToBytes padded data.length = data := elementsToBytes_padded data padding
  cases shards with
  | nil => simp only [List.length_nil] at enough; omega
  | cons first rest =>
      have groupCount : first.data.length = groups := sampled.length (by simp)
      have notShort : ¬ (first :: rest).length < k := by omega
      unfold decode
      simp only [power, Bool.not_true, Bool.false_eq_true, if_false, notShort, groupCount]
      by_cases complete : ((first :: rest).length == n && isComplete (first :: rest) n) = true
      · have count : (first :: rest).length = n := by
          simp only [Bool.and_eq_true, beq_iff_eq] at complete
          exact complete.1
        have decoded := mapM_some (List.range groups) fun g member =>
          decodeFullGroup_eq lawful size threshold sampled count distinct (List.mem_range.mp member)
        rw [if_pos complete, decodeFull, decoded]
        simp only [Outcome.expect_some, Outcome.ok_bind, Outcome.pure_eq, ← List.flatMap_def, whole,
          bytes]
      · let available := (first :: rest).take k
        have availableSampled : Sampled padded k n groups available := fun shard member =>
          sampled shard (List.mem_of_mem_take member)
        have availableDistinct : (available.map Shard.index).Nodup := by
          rw [List.map_take]
          exact distinct.sublist (List.take_sublist ..)
        have availableCount : available.length = k := by
          rw [List.length_take]
          exact Nat.min_eq_left enough
        have admitted := availableSampled.checkAvailable availableDistinct
        have groupwise : (List.range groups).flatMap (decodeGroup available
            (available.map fun shard => Goldilocks.rootOfUnity n ^ shard.index) k) = padded := by
          rw [← whole]
          refine List.flatMap_congr fun g member => ?_
          exact decodeGroup_eq size availableSampled availableCount availableDistinct
            (List.mem_range.mp member)
        rw [if_neg complete]
        simp only [available] at admitted groupwise
        rw [admitted, Outcome.ok_bind, groupwise, Outcome.pure_eq, bytes]

/-- Any sub-collection of at least `k` distinct shards, in any order, decodes to
the encoded data, on the inverse-transform path and on the interpolation path. -/
theorem decode_encode (nebu : Nebu) (lawful : nebu.Lawful) (data : List UInt8) (k n : Nat)
    (power : isPowerOfTwo n = true) (bound : n ≤ 2 ^ 32) (positive : 1 ≤ k) (threshold : k ≤ n) :
    ∃ encoded, encode nebu data k n = some encoded ∧
      ∀ shards : List Shard, (∀ shard ∈ shards, shard ∈ encoded) →
        (shards.map Shard.index).Nodup → k ≤ shards.length →
        decode nebu shards k n data.length = .ok data := by
  obtain ⟨_, _, _, encoded⟩ := encode_eq lawful data power bound positive threshold
  exact ⟨_, encoded, (encode_codeword lawful bound encoded).decodes⟩

/-- The transforms computed from their definition: Horner evaluation at every
power of the root of unity, and interpolation through all of them. -/
def naiveNebu : Nebu where
  ntt poly := (List.range poly.length).map fun index =>
    poly.foldr (fun coefficient rest =>
      coefficient + Goldilocks.rootOfUnity poly.length ^ index * rest) 0
  intt values := lagrangeInterpolate
    ((List.range values.length).map (Goldilocks.rootOfUnity values.length ^ ·)) values

theorem naiveNebu_lawful : naiveNebu.Lawful where
  ntt_evaluates poly _ := by simp only [naiveNebu, listPoly_eval]
  intt_inverts poly size := by
    let points := (List.range poly.length).map (Goldilocks.rootOfUnity poly.length ^ ·)
    have distinct : points.Nodup := by
      refine List.Nodup.map_on ?_ List.nodup_range
      intro left leftMember right rightMember same
      exact Goldilocks.rootOfUnity_pow_inj size (List.mem_range.mp leftMember)
        (List.mem_range.mp rightMember) same
    have samples : naiveNebu.ntt poly =
        points.map fun point => (listPoly poly).eval point := by
      simp [naiveNebu, points, listPoly_eval, Function.comp_def]
    have restored := lagrangeInterpolate_samples distinct
      (show poly.length = points.length by simp [points])
    rw [← samples] at restored
    simpa [naiveNebu, points] using restored

/-- A constant polynomial has the same value everywhere. -/
theorem naiveNebu_ntt_constant {poly : List Goldilocks} (constant : poly.tail.all (· == 0) = true) :
    naiveNebu.ntt poly = List.replicate poly.length (poly.headD 0) := by
  cases poly with
  | nil => rfl
  | cons coefficient rest =>
      simp only [List.tail_cons, List.all_eq_true, beq_iff_eq] at constant
      have vanishes : ∀ point : Goldilocks,
          rest.foldr (fun coefficient rest => coefficient + point * rest) 0 = 0 := by
        intro point
        induction rest with
        | nil => rfl
        | cons other rest ih =>
            have tail := ih fun value member => constant value (by simp [member])
            rw [List.foldr_cons, tail, constant other (by simp), mul_zero, zero_add]
      simp only [naiveNebu, List.foldr_cons, vanishes, mul_zero, add_zero, List.headD_cons,
        List.map_const', List.length_range]

theorem naiveNebu_intt_constant (value : Goldilocks) {size : Nat}
    (power : Goldilocks.TransformSize (size + 1)) :
    naiveNebu.intt (List.replicate (size + 1) value) = value :: List.replicate size 0 := by
  have constant : ((value :: List.replicate size 0).tail.all (· == 0)) = true := by simp
  have length : (value :: List.replicate size (0 : Goldilocks)).length = size + 1 := by simp
  have inverted := naiveNebu_lawful.intt_inverts (value :: List.replicate size 0) (length ▸ power)
  rwa [naiveNebu_ntt_constant constant, length] at inverted

/-- In this form the transforms of constants can be evaluated without computing
the root of unity. -/
theorem naiveNebu_eq : naiveNebu =
    { ntt := fun poly =>
        if poly.tail.all (· == 0) then List.replicate poly.length (poly.headD 0)
        else naiveNebu.ntt poly
      intt := fun values =>
        if isPowerOfTwo values.length && decide (values.length ≤ 2 ^ 32) &&
            values.all (· == values.headD 0) then
          values.headD 0 :: List.replicate (values.length - 1) 0
        else naiveNebu.intt values } := by
  rw [Nebu.mk.injEq]
  constructor
  · funext poly
    split_ifs with constant
    · exact naiveNebu_ntt_constant constant
    · rfl
  · funext values
    split_ifs with uniform
    · simp only [Bool.and_eq_true, decide_eq_true_eq, List.all_eq_true, beq_iff_eq] at uniform
      obtain ⟨⟨power, bound⟩, same⟩ := uniform
      cases values with
      | nil => cases power
      | cons value rest =>
          have repeated : value :: rest = List.replicate (rest.length + 1) value :=
            List.eq_replicate_iff.mpr ⟨rfl, same⟩
          have size := TransformSize_of_isPowerOfTwo power bound
          rw [List.headD_cons, repeated, naiveNebu_intt_constant value size]
          simp
    · rfl

/-- With `k = 1` every shard is a copy of the data. -/
theorem encode_single_byte :
    encode naiveNebu [7] 1 2 = some [⟨0, [7]⟩, ⟨1, [7]⟩] := by
  have elements : bytesToElements [7] = [7] := by decide +kernel
  have poly : groupPoly [7] 1 2 0 = [7, 0] := by decide +kernel
  have transformed : naiveNebu.ntt [7, 0] = [7, 7] := by
    simp [naiveNebu, List.range_succ]
  rw [encode, if_neg (by decide), if_neg (by decide)]
  simp [elements, resize, pushGroup, poly, transformed, List.range_succ]

theorem decode_encode_three_bytes :
    naiveNebu.Lawful ∧ isPowerOfTwo 4 = true ∧
      ∃ encoded, encode naiveNebu [104, 105, 33] 2 4 = some encoded ∧
        ∀ shards : List Shard, (∀ shard ∈ shards, shard ∈ encoded) →
          (shards.map Shard.index).Nodup → 2 ≤ shards.length →
          decode naiveNebu shards 2 4 3 = .ok [104, 105, 33] :=
  ⟨naiveNebu_lawful, by decide,
    decode_encode naiveNebu naiveNebu_lawful [104, 105, 33] 2 4 (by decide) (by decide) (by decide)
      (by decide)⟩

end Foculus.Erasure

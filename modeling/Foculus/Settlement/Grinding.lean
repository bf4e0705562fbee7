import Foculus.Settlement.Accumulators
import Foculus.Settlement.MarginalCert

namespace Foculus.Settlement

open Data ClusterAcc

/-! # What grinding returns

The attempts of `grind_settlement` count on while the nonce stops at `u64::MAX`,
so past the end of the range the last nonce is tried again and again, and if it
wins it is returned as often as tickets are still wanted. -/

def topNonce : UInt64 := 2 ^ 64 - 1

theorem topNonce_toNat : topNonce.toNat = 2 ^ 64 - 1 := by decide +kernel

/-- The nonces from `start` on, as many as there are attempts and up to the last one. -/
def nonceInterval (startNonce maxAttempts : UInt64) : List UInt64 :=
  (List.range (min maxAttempts.toNat (2 ^ 64 - startNonce.toNat))).map fun i =>
    UInt64.ofNat (startNonce.toNat + i)

theorem attempted_toNat (startNonce : UInt64) (i : Nat) :
    (satAdd startNonce (lenU64 i)).toNat = min (startNonce.toNat + i) (2 ^ 64 - 1) := by
  rw [satAdd, lenU64_toNat, lenU64_toNat]
  omega

theorem attempted_below {startNonce : UInt64} {i : Nat} (below : startNonce.toNat + i < 2 ^ 64) :
    satAdd startNonce (lenU64 i) = UInt64.ofNat (startNonce.toNat + i) := by
  apply UInt64.toNat_inj.mp
  rw [attempted_toNat, UInt64.toNat_ofNat_of_lt' below]
  omega

theorem attempted_past {startNonce : UInt64} {i : Nat} (past : 2 ^ 64 ≤ startNonce.toNat + i) :
    satAdd startNonce (lenU64 i) = topNonce := by
  apply UInt64.toNat_inj.mp
  rw [attempted_toNat, topNonce_toNat]
  omega

/-- The nonces that are tried: the interval, and then the last nonce again. -/
theorem attempted_eq (startNonce maxAttempts : UInt64) :
    (List.range maxAttempts.toNat).map (fun i => satAdd startNonce (lenU64 i)) =
      nonceInterval startNonce maxAttempts ++
        List.replicate (startNonce.toNat + maxAttempts.toNat - 2 ^ 64) topNonce := by
  have bound := startNonce.toNat_lt
  have split : maxAttempts.toNat = min maxAttempts.toNat (2 ^ 64 - startNonce.toNat) +
      (startNonce.toNat + maxAttempts.toNat - 2 ^ 64) := by omega
  have before : ∀ i ∈ List.range (min maxAttempts.toNat (2 ^ 64 - startNonce.toNat)),
      satAdd startNonce (lenU64 i) = UInt64.ofNat (startNonce.toNat + i) := by
    intro i member
    have inside := List.mem_range.mp member
    exact attempted_below (by omega)
  have after : ∀ i < startNonce.toNat + maxAttempts.toNat - 2 ^ 64,
      satAdd startNonce
        (lenU64 (min maxAttempts.toNat (2 ^ 64 - startNonce.toNat) + i)) = topNonce := by
    intro i more
    exact attempted_past (by omega)
  rw [nonceInterval]
  generalize startNonce.toNat + maxAttempts.toNat - 2 ^ 64 = past at split after ⊢
  generalize min maxAttempts.toNat (2 ^ 64 - startNonce.toNat) = inside at split before after ⊢
  rw [split, List.range_add, List.map_append, List.map_map]
  refine congrArg₂ _ (List.map_congr_left before) (List.eq_replicate_iff.mpr ⟨by simp, ?_⟩)
  intro nonce member
  obtain ⟨i, inRange, rfl⟩ := List.mem_map.mp member
  exact after i (List.mem_range.mp inRange)

theorem nonceInterval_increasing (startNonce maxAttempts : UInt64) :
    (nonceInterval startNonce maxAttempts).Pairwise (· < ·) := by
  have bound := startNonce.toNat_lt
  refine List.pairwise_map.mpr (List.pairwise_lt_range.imp_of_mem ?_)
  intro i j member otherMember below
  have inside := List.mem_range.mp member
  have otherInside := List.mem_range.mp otherMember
  have fits : startNonce.toNat + i < 2 ^ 64 := by omega
  have otherFits : startNonce.toNat + j < 2 ^ 64 := by omega
  rw [UInt64.lt_iff_toNat_lt, UInt64.toNat_ofNat_of_lt' fits, UInt64.toNat_ofNat_of_lt' otherFits]
  omega

theorem topNonce_mem {startNonce maxAttempts : UInt64}
    (past : 2 ^ 64 ≤ startNonce.toNat + maxAttempts.toNat) :
    topNonce ∈ nonceInterval startNonce maxAttempts := by
  have bound := startNonce.toNat_lt
  have fits : startNonce.toNat + (2 ^ 64 - 1 - startNonce.toNat) < 2 ^ 64 := by omega
  refine List.mem_map.mpr ⟨2 ^ 64 - 1 - startNonce.toNat, List.mem_range.mpr (by omega), ?_⟩
  apply UInt64.toNat_inj.mp
  rw [UInt64.toNat_ofNat_of_lt' fits, topNonce_toNat]
  omega

section Grinding

variable {hemera : Hemera} {tru : Tru} {base : List Link} {contribs : List Contribution}
  {ctx : tru.Context} {params : tru.FocusingParams} {beacon cluster miner : Particle}
  {startNonce maxAttempts target : UInt64} {want : Nat}

/-- The winners of the interval, in its order. -/
def winners (hemera : Hemera) (tru : Tru) (base : List Link) (contribs : List Contribution)
    (ctx : tru.Context) (params : tru.FocusingParams) (beacon cluster miner : Particle)
    (startNonce maxAttempts target : UInt64) : List SettlementTicket :=
  (nonceInterval startNonce maxAttempts).filterMap fun nonce =>
    trySettlementTicket hemera tru base contribs ctx params beacon cluster miner nonce target

theorem grindSettlement_eq :
    grindSettlement hemera tru base contribs ctx params beacon cluster miner startNonce maxAttempts
        want target =
      (winners hemera tru base contribs ctx params beacon cluster miner startNonce maxAttempts
          target ++
        (List.replicate (startNonce.toNat + maxAttempts.toNat - 2 ^ 64) topNonce).filterMap
          fun nonce => trySettlementTicket hemera tru base contribs ctx params beacon cluster miner
            nonce target).take want := by
  rw [grindSettlement_attempts, winners, ← List.filterMap_append, ← attempted_eq,
    List.filterMap_map]
  rfl

/-- The range ends before the attempts do, the last nonce wins, and more tickets
are wanted than the interval has winners. -/
def Repeats (hemera : Hemera) (tru : Tru) (base : List Link) (contribs : List Contribution)
    (ctx : tru.Context) (params : tru.FocusingParams) (beacon cluster miner : Particle)
    (startNonce maxAttempts target : UInt64) (want : Nat) : Prop :=
  2 ^ 64 < startNonce.toNat + maxAttempts.toNat ∧
    (trySettlementTicket hemera tru base contribs ctx params beacon cluster miner topNonce
      target).isSome ∧
    (winners hemera tru base contribs ctx params beacon cluster miner startNonce maxAttempts
      target).length < want

theorem grindSettlement_of_not_repeats
    (once : ¬ Repeats hemera tru base contribs ctx params beacon cluster miner startNonce maxAttempts
      target want) :
    grindSettlement hemera tru base contribs ctx params beacon cluster miner startNonce maxAttempts
        want target =
      (winners hemera tru base contribs ctx params beacon cluster miner startNonce maxAttempts
        target).take want := by
  rw [grindSettlement_eq]
  by_cases fits : startNonce.toNat + maxAttempts.toNat ≤ 2 ^ 64
  · rw [Nat.sub_eq_zero_of_le fits, List.replicate_zero, List.filterMap_nil, List.append_nil]
  by_cases enough : want ≤ (winners hemera tru base contribs ctx params beacon cluster miner
      startNonce maxAttempts target).length
  · exact List.take_append_of_le_length enough
  · have loses : trySettlementTicket hemera tru base contribs ctx params beacon cluster miner
        topNonce target = none := by
      refine Option.not_isSome_iff_eq_none.mp fun wins => once ⟨?_, wins, ?_⟩
      · exact Nat.lt_of_not_le fits
      · exact Nat.lt_of_not_le enough
    simp only [List.filterMap_replicate, loses, List.append_nil]

theorem grindSettlement_of_repeats
    (repeats : Repeats hemera tru base contribs ctx params beacon cluster miner startNonce
      maxAttempts target want) :
    ∃ ticket more, ticket ∈ winners hemera tru base contribs ctx params beacon cluster miner
        startNonce maxAttempts target ∧
      grindSettlement hemera tru base contribs ctx params beacon cluster miner startNonce maxAttempts
          want target =
        winners hemera tru base contribs ctx params beacon cluster miner startNonce maxAttempts
          target ++ ticket :: more := by
  obtain ⟨past, wins, short⟩ := repeats
  obtain ⟨ticket, won⟩ := Option.isSome_iff_exists.mp wins
  obtain ⟨extra, again⟩ := Nat.exists_eq_add_of_lt past
  obtain ⟨missing, room⟩ := Nat.exists_eq_add_of_lt short
  refine ⟨ticket, (List.replicate extra ticket).take missing, ?_, ?_⟩
  · exact List.mem_filterMap.mpr ⟨topNonce, topNonce_mem (Nat.le_of_lt past), won⟩
  · have times : startNonce.toNat + maxAttempts.toNat - 2 ^ 64 = extra + 1 := by omega
    simp only [grindSettlement_eq, times, List.filterMap_replicate, won]
    rw [room, Nat.add_assoc, List.take_length_add_append, List.replicate_succ, List.take_succ_cons]

theorem winners_increasing :
    ((winners hemera tru base contribs ctx params beacon cluster miner startNonce maxAttempts
      target).map SettlementTicket.nonce).Pairwise (· < ·) := by
  rw [List.pairwise_map, winners, List.pairwise_filterMap]
  refine (nonceInterval_increasing startNonce maxAttempts).imp ?_
  intro nonce later below ticket won other otherWon
  rw [(trySettlementTicket_eq_some_iff.mp won).2.2.1,
    (trySettlementTicket_eq_some_iff.mp otherWon).2.2.1]
  exact below

/-- The nonces increase exactly when none is repeated. -/
theorem grindSettlement_increasing_iff :
    ((grindSettlement hemera tru base contribs ctx params beacon cluster miner startNonce maxAttempts
      want target).map SettlementTicket.nonce).Pairwise (· < ·) ↔
    ¬ Repeats hemera tru base contribs ctx params beacon cluster miner startNonce maxAttempts target
      want := by
  constructor
  · intro increasing repeats
    obtain ⟨ticket, more, member, ground⟩ := grindSettlement_of_repeats repeats
    rw [ground, List.pairwise_map, List.pairwise_append] at increasing
    exact UInt64.lt_irrefl _ (increasing.2.2 ticket member ticket List.mem_cons_self)
  · intro once
    rw [grindSettlement_of_not_repeats once, List.map_take]
    exact winners_increasing.sublist (List.take_sublist _ _)

theorem grindSettlement_eq_winners_iff :
    grindSettlement hemera tru base contribs ctx params beacon cluster miner startNonce maxAttempts
        want target =
      (winners hemera tru base contribs ctx params beacon cluster miner startNonce maxAttempts
        target).take want ↔
    ¬ Repeats hemera tru base contribs ctx params beacon cluster miner startNonce maxAttempts target
      want := by
  refine ⟨fun same repeats => ?_, grindSettlement_of_not_repeats⟩
  obtain ⟨ticket, more, _, ground⟩ := grindSettlement_of_repeats repeats
  rw [ground, List.take_of_length_le (Nat.le_of_lt repeats.2.2)] at same
  have lengths := congrArg List.length same
  simp at lengths

theorem grindSettlement_keys_nodup_iff :
    ((grindSettlement hemera tru base contribs ctx params beacon cluster miner startNonce maxAttempts
      want target).map SettlementTicket.key).Nodup ↔
    ¬ Repeats hemera tru base contribs ctx params beacon cluster miner startNonce maxAttempts target
      want := by
  constructor
  · intro distinct repeats
    obtain ⟨ticket, more, member, ground⟩ := grindSettlement_of_repeats repeats
    rw [ground, List.map_append, List.nodup_append] at distinct
    exact distinct.2.2 ticket.key (List.mem_map_of_mem member) ticket.key
      (List.mem_map_of_mem List.mem_cons_self) rfl
  · intro once
    have increasing := grindSettlement_increasing_iff.mpr once
    rw [List.pairwise_map] at increasing
    rw [List.Nodup, List.pairwise_map]
    exact increasing.imp fun below same => UInt64.ne_of_lt below (congrArg Prod.snd same)

end Grinding

section Counting

variable (hemera : Hemera) (n : Nat) {tickets : List SettlementTicket} {width : Nat}

/-- An accumulator takes the dimension of its first ticket. -/
theorem selfFold_dimension (dimension : ∀ ticket ∈ tickets, ticket.marginals.length = width) :
    (selfFold hemera n tickets).k = (selfFold hemera width tickets).k ∧
      (selfFold hemera n tickets).seen = (selfFold hemera width tickets).seen := by
  cases tickets with
  | nil => exact ⟨rfl, rfl⟩
  | cons ticket rest =>
      have first : absorbTicket hemera (ClusterAcc.empty n) ticket =
          absorbTicket hemera (ClusterAcc.empty width) ticket := by
        by_cases lengths : n = width
        · rw [lengths]
        · have widths := dimension ticket List.mem_cons_self
          have mismatch : (ClusterAcc.empty n).sumM.length ≠ ticket.marginals.length := by
            rw [widths]
            exact fun same => lengths (List.length_replicate.symm.trans same)
          rw [absorbTicket_adopts Std.ExtTreeSet.not_mem_empty mismatch rfl, widths]
          rfl
      rw [selfFold, List.foldl_cons, first]
      exact ⟨rfl, rfl⟩

theorem mem_selfFold_seen {sample : Particle × UInt64} :
    sample ∈ (selfFold hemera n tickets).seen ↔ sample ∈ tickets.map SettlementTicket.key := by
  have seen : SeenOf (selfFold hemera n tickets) tickets := by
    induction tickets using List.reverseRecOn with
    | nil => exact fun sample => iff_of_false Std.ExtTreeSet.not_mem_empty (by simp)
    | append_singleton tickets ticket ih =>
        rw [selfFold_append_singleton]
        exact ih.absorb ticket
  exact seen sample

theorem selfFold_size_eq_iff :
    (selfFold hemera n tickets).seen.size = tickets.length ↔
      (tickets.map SettlementTicket.key).Nodup := by
  induction tickets using List.reverseRecOn with
  | nil => exact iff_of_true rfl List.nodup_nil
  | append_singleton tickets ticket ih =>
      have bound := selfFold_size_le hemera n tickets
      have distinct : ((tickets ++ [ticket]).map SettlementTicket.key).Nodup ↔
          (tickets.map SettlementTicket.key).Nodup ∧
            ticket.key ∉ tickets.map SettlementTicket.key := by
        rw [List.map_append, List.map_singleton, ← List.concat_eq_append, List.nodup_concat]
        exact and_comm
      rw [selfFold_append_singleton, absorbTicket_seen, Std.ExtTreeSet.size_insert, distinct, ← ih,
        ← mem_selfFold_seen hemera n, List.length_append, List.length_singleton]
      split_ifs with known
      · exact iff_of_false (by omega) fun both => both.2 known
      · rw [Nat.add_right_cancel_iff]
        exact (and_iff_left known).symm

theorem selfFold_counts_iff (dimension : ∀ ticket ∈ tickets, ticket.marginals.length = width)
    (few : tickets.length < 2 ^ 64) :
    (selfFold hemera n tickets).k = lenU64 tickets.length ↔
      (tickets.map SettlementTicket.key).Nodup := by
  obtain ⟨counts, seen⟩ := selfFold_dimension hemera n dimension
  have bound := selfFold_size_le hemera n tickets
  rw [counts, (selfFold_valid hemera dimension).counted, ← seen,
    ← selfFold_size_eq_iff hemera n, ← UInt64.toNat_inj, lenU64_toNat,
    lenU64_toNat]
  omega

end Counting

/-- How many samples the tickets are. -/
def distinctSamples (tickets : List SettlementTicket) : Nat :=
  (tickets.map SettlementTicket.key).dedup.length

theorem distinctSamples_eq_iff {tickets : List SettlementTicket} :
    distinctSamples tickets = tickets.length ↔ (tickets.map SettlementTicket.key).Nodup := by
  rw [distinctSamples, ← List.dedup_eq_self,
    ← (List.dedup_sublist (tickets.map SettlementTicket.key)).length_eq, List.length_map]

theorem distinctSamples_le (tickets : List SettlementTicket) :
    distinctSamples tickets ≤ tickets.length := by
  have shorter := (List.dedup_sublist (tickets.map SettlementTicket.key)).length_le
  rwa [List.length_map] at shorter

theorem distinctSamples_lenU64_iff {tickets : List SettlementTicket}
    (few : tickets.length < 2 ^ 64) :
    lenU64 tickets.length = lenU64 (distinctSamples tickets) ↔
      distinctSamples tickets = tickets.length := by
  have bound := distinctSamples_le tickets
  rw [← UInt64.toNat_inj, lenU64_toNat, lenU64_toNat]
  omega

/-- The `Vec` for the tickets wanted is at most `isize::MAX` bytes. -/
def Reservable (want : Nat) : Prop := want * ticketSize < 2 ^ 63

instance (want : Nat) : Decidable (Reservable want) :=
  inferInstanceAs (Decidable (_ < _))

theorem checkedGrind_eq_some_iff {hemera : Hemera} {tru : Tru} {base : List Link}
    {contribs : List Contribution} {ctx : tru.Context} {params : tru.FocusingParams}
    {beacon cluster miner : Particle} {startNonce maxAttempts target : UInt64} {want : Nat}
    {tickets : List SettlementTicket} :
    checkedGrind hemera tru base contribs ctx params beacon cluster miner startNonce maxAttempts want
        target = some tickets ↔
      Reservable want ∧ grindSettlement hemera tru base contribs ctx params beacon cluster miner
        startNonce maxAttempts want target = tickets := by
  rw [checkedGrind, Reservable]
  split_ifs with room
  · rw [Option.some_inj, and_iff_right room]
  · exact iff_of_false (by simp) fun both => room both.1

/-- Grinding returns the first winners of the interval, with increasing nonces
that are all counted, unless it has no room for the tickets wanted or repeats the
last nonce. -/
theorem grind_returns_first_winners (hemera : Hemera) (tru : Tru) (base : List Link)
    (contribs : List Contribution) (ctx : tru.Context) (params : tru.FocusingParams)
    (beacon cluster miner : Particle) (startNonce maxAttempts : UInt64) (want : Nat)
    (target : UInt64) :
    let ground := checkedGrind hemera tru base contribs ctx params beacon cluster miner startNonce
      maxAttempts want target
    let once := Reservable want ∧ ¬ Repeats hemera tru base contribs ctx params beacon cluster miner
      startNonce maxAttempts target want
    (ground = some ((winners hemera tru base contribs ctx params beacon cluster miner startNonce
        maxAttempts target).take want) ↔ once) ∧
    ((∃ tickets, ground = some tickets ∧
        (tickets.map SettlementTicket.nonce).Pairwise (· < ·)) ↔ once) ∧
    (∀ nContrib, (∃ tickets, ground = some tickets ∧
        (selfFold hemera nContrib tickets).k = lenU64 tickets.length) ↔ once) ∧
    ∀ (tickets : List SettlementTicket) (zheng : Zheng) (sealed : FoldSeal zheng),
      ground = some tickets → proveSettlementBatch hemera zheng beacon cluster tickets = .ok sealed →
      (sealed.statement =
        ticketStatement hemera beacon cluster (lenU64 (distinctSamples tickets)) ↔ once) := by
  intro ground once
  have few := @grindSettlement_length_lt hemera tru base contribs ctx params beacon cluster miner
    startNonce maxAttempts target want
  refine ⟨?_, ?_, fun nContrib => ?_, ?_⟩
  · rw [checkedGrind_eq_some_iff, grindSettlement_eq_winners_iff]
  · simp only [ground, checkedGrind_eq_some_iff, and_assoc, exists_and_left, exists_eq_left']
    rw [grindSettlement_increasing_iff]
  · simp only [ground, checkedGrind_eq_some_iff, and_assoc, exists_and_left, exists_eq_left']
    rw [selfFold_counts_iff hemera nContrib grindSettlement_dimension few,
      grindSettlement_keys_nodup_iff]
  · intro tickets zheng sealed returned proven
    obtain ⟨room, rfl⟩ := checkedGrind_eq_some_iff.mp returned
    have counts := distinctSamples_lenU64_iff few
    refine Iff.trans ?_ (and_iff_right room).symm
    rw [proveSettlementBatch_statement proven, ← grindSettlement_keys_nodup_iff,
      ← distinctSamples_eq_iff, ← counts]
    exact ⟨ticketStatement_count, fun same => by rw [same]⟩

def loneContribution : Contribution :=
  ⟨Particle.padded [1], [Tru.unit.stake (Particle.padded [8]) (Particle.padded [9]) 100], Fx.one⟩

/-- All that is ground of one contribution from `startNonce` on, against the target that
always wins. -/
def loneGround (startNonce maxAttempts : UInt64) (want : Nat) : Option (List SettlementTicket) :=
  checkedGrind .truncating .unit [] [loneContribution] () () .zero .zero (Particle.padded [7])
    startNonce maxAttempts want topNonce

theorem grind_returns_first_winners_two :
    ∃ tickets sealed, loneGround 3 5 2 = some tickets ∧ tickets.length = 2 ∧
      (tickets.map SettlementTicket.nonce).Pairwise (· < ·) ∧
      (selfFold .truncating 1 tickets).k = lenU64 tickets.length ∧
      proveSettlementBatch .truncating Step.counting .zero .zero tickets = .ok sealed ∧
      sealed.statement = ticketStatement .truncating .zero .zero
        (lenU64 (distinctSamples tickets)) := by
  have once : Reservable 2 ∧ ¬ Repeats .truncating .unit [] [loneContribution] () () .zero .zero
      (Particle.padded [7]) 3 5 topNonce 2 :=
    ⟨by decide, fun repeats => absurd repeats.1 (by decide)⟩
  obtain ⟨_, increasing, counted, stated⟩ := grind_returns_first_winners .truncating .unit []
    [loneContribution] () () .zero .zero (Particle.padded [7]) 3 5 2 topNonce
  obtain ⟨tickets, ground, inOrder⟩ := increasing.mpr once
  obtain ⟨same, groundSame, all⟩ := (counted 1).mpr once
  cases ground.symm.trans groundSame
  have inhabited : (loneGround 3 5 2).map List.length = some 2 := by decide +kernel
  have ground : loneGround 3 5 2 = some tickets := ground
  rw [ground, Option.map_some, Option.some_inj] at inhabited
  obtain ⟨sealed, proven, _⟩ := proveSettlementBatch_ok Step.counting_complete .truncating .zero .zero
    (List.ne_nil_of_length_eq_add_one inhabited)
  exact ⟨tickets, sealed, ground, inhabited, inOrder, all, proven,
    (stated tickets Step.counting sealed ground proven).mpr once⟩

/-- The last nonce, ground twice and counted once; and a number of tickets for which there
is no room. -/
theorem last_nonce_ground_twice :
    ((loneGround (2 ^ 64 - 1) 2 2).map fun tickets => (tickets.map SettlementTicket.nonce,
      tickets.length, (selfFold .truncating 1 tickets).k, distinctSamples tickets)) =
        some ([2 ^ 64 - 1, 2 ^ 64 - 1], 2, 1, 1) ∧
    (winners .truncating .unit [] [loneContribution] () () .zero .zero (Particle.padded [7])
      (2 ^ 64 - 1) 2 topNonce).map SettlementTicket.nonce = [2 ^ 64 - 1] ∧
    loneGround 0 1 (2 ^ 64 - 1) = none := by
  decide +kernel

end Foculus.Settlement

import Foculus.Data.FirstByKey
import Foculus.Settlement.SampleCount

namespace Foculus.Settlement

open Data ClusterAcc

/-! # What an accumulator accounts for

`absorb_ticket` remembers the pair of a ticket before it looks at the dimension
of its marginals, and drops the ticket after that.  `fold_acc_checked` unites the
pairs of two accumulators of different dimensions and keeps the sums of one.  An
assembly is a run of these two operations; its accumulators account for their
samples as long as neither of this happens. -/

/-- Why `fold_acc_checked` refuses. -/
inductive FoldOverlap where
  | nonDisjoint (count : Nat)
deriving DecidableEq, Repr

def foldAccChecked (hemera : Hemera) (left right : ClusterAcc) : Except FoldOverlap ClusterAcc :=
  let inter := (left.seen ∩ right.seen).size
  if inter > 0 then .error (.nonDisjoint inter)
  else
    let seen := left.seen ∪ right.seen
    .ok <| ClusterAcc.committed hemera <|
      if left.sumM.length = right.sumM.length then {
        sumM := List.zipWith (· + ·) left.sumM right.sumM
        k := satAdd left.k right.k
        seen
        commitment := Particle.zero }
      else if left.k ≥ right.k then { left with seen, k := lenU64 seen.size }
      else { right with seen, k := lenU64 seen.size }

/-- Where the checked fold succeeds it is the unchecked one. -/
theorem foldAccChecked_eq_ok_iff {hemera : Hemera} {left right after : ClusterAcc} :
    foldAccChecked hemera left right = .ok after ↔
      (left.seen ∩ right.seen).size = 0 ∧ after = foldAcc hemera left right := by
  by_cases disjoint : (left.seen ∩ right.seen).size = 0
  · have folded : foldAccChecked hemera left right = .ok (foldAcc hemera left right) := by
      simp only [foldAccChecked, foldAcc, disjoint, gt_iff_lt, Nat.lt_irrefl, if_true, if_false]
    rw [folded, Except.ok.injEq, eq_comm]
    exact (and_iff_right disjoint).symm
  · have refused : foldAccChecked hemera left right =
        .error (.nonDisjoint (left.seen ∩ right.seen).size) :=
      if_pos (Nat.pos_of_ne_zero disjoint)
    simp [refused, disjoint]

/-! What one accumulator accounts for. -/

/-- The tickets that a set of samples stands for: for each sample the first
ticket with this pair. -/
def sampled (seen : Samples) (tickets : List SettlementTicket) : List SettlementTicket :=
  (firstByKey SettlementTicket.key tickets).filter fun ticket => seen.contains ticket.key

/-- Count, sums and commitment are those of the samples among the tickets. -/
structure Accounts (hemera : Hemera) (tickets : List SettlementTicket) (acc : ClusterAcc) :
    Prop where
  counted : acc.k = lenU64 acc.seen.size
  dimension : ∀ ticket ∈ sampled acc.seen tickets, ticket.marginals.length = acc.sumM.length
  summed : ∀ i, acc.sums i =
    ((sampled acc.seen tickets).map fun ticket => ticket.marginals.getD i 0).sum
  commits : acc.k > 0 → acc.commitment = accCommitment hemera acc

/-- The accumulator has seen the pairs of these tickets. -/
def SeenOf (acc : ClusterAcc) (tickets : List SettlementTicket) : Prop :=
  ∀ sample, sample ∈ acc.seen ↔ sample ∈ tickets.map SettlementTicket.key

section Steps

variable {hemera : Hemera} {acc left right : ClusterAcc} {tickets others : List SettlementTicket}
  {ticket : SettlementTicket}

theorem SeenOf.sampled (seen : SeenOf acc tickets) :
    sampled acc.seen tickets = firstByKey SettlementTicket.key tickets := by
  refine List.filter_eq_self.mpr fun ticket member => ?_
  exact (seen ticket.key).mpr (mem_keys_firstByKey.mp (List.mem_map_of_mem member))

theorem SeenOf.absorb (seen : SeenOf acc tickets) (ticket : SettlementTicket) :
    SeenOf (absorbTicket hemera acc ticket) (tickets ++ [ticket]) := by
  intro sample
  rw [absorbTicket_seen, Std.ExtTreeSet.mem_insert, Std.LawfulEqCmp.compare_eq_iff_eq, seen sample,
    List.map_append, List.mem_append, List.map_singleton, List.mem_singleton, or_comm, eq_comm]

theorem SeenOf.fold (leftSeen : SeenOf left tickets) (rightSeen : SeenOf right others) :
    SeenOf (foldAcc hemera left right) (tickets ++ others) := by
  intro sample
  rw [foldAcc_seen, Std.ExtTreeSet.mem_union_iff, leftSeen sample, rightSeen sample,
    List.map_append, List.mem_append]

theorem SeenOf.size_eq_zero_iff (seen : SeenOf acc tickets) : acc.seen.size = 0 ↔ tickets = [] := by
  rw [← Std.ExtTreeSet.eq_empty_iff_size_eq_zero, ← List.map_eq_nil_iff (f := SettlementTicket.key),
    List.eq_nil_iff_forall_not_mem]
  constructor
  · intro empty sample
    rw [← seen sample, empty]
    exact Std.ExtTreeSet.not_mem_empty
  · intro none_
    refine Std.ExtTreeSet.ext_mem fun sample => ?_
    rw [seen sample]
    exact iff_of_false (none_ sample) Std.ExtTreeSet.not_mem_empty

/-- An accumulator counts nothing exactly when nothing was absorbed. -/
theorem Accounts.idle_iff (accounts : Accounts hemera tickets acc) (seen : SeenOf acc tickets) :
    acc.k = 0 ↔ tickets = [] := by
  rw [accounts.counted, lenU64_eq_zero_iff, seen.size_eq_zero_iff]

theorem committed_accounts (seen : SeenOf acc tickets) (counted : acc.k = lenU64 acc.seen.size)
    (dimension : ∀ ticket ∈ firstByKey SettlementTicket.key tickets,
      ticket.marginals.length = acc.sumM.length)
    (summed : ∀ i, acc.sums i =
      ((firstByKey SettlementTicket.key tickets).map fun ticket => ticket.marginals.getD i 0).sum) :
    Accounts hemera tickets (ClusterAcc.committed hemera acc) := by
  rw [← seen.sampled] at dimension summed
  exact ⟨counted, dimension, summed, fun _ => rfl⟩

/-- The accumulator adds the ticket, or has no need to. -/
def Takes (acc : ClusterAcc) (ticket : SettlementTicket) : Prop :=
  ticket.key ∈ acc.seen ∨ acc.k = 0 ∨ acc.sumM.length = ticket.marginals.length

theorem Accounts.absorb_known (accounts : Accounts hemera tickets acc) (seen : SeenOf acc tickets)
    (known : ticket.key ∈ acc.seen) :
    Accounts hemera (tickets ++ [ticket]) (absorbTicket hemera acc ticket) := by
  have absorbed : absorbTicket hemera acc ticket = acc := if_pos known
  have first : sampled acc.seen (tickets ++ [ticket]) = sampled acc.seen tickets := by
    rw [sampled, firstByKey_of_known ((seen ticket.key).mp known), sampled]
  obtain ⟨counted, dimension, summed, commits⟩ := accounts
  rw [← first] at dimension summed
  rw [absorbed]
  exact ⟨counted, dimension, summed, commits⟩

theorem Accounts.absorb_fitting (accounts : Accounts hemera tickets acc) (seen : SeenOf acc tickets)
    (new : ticket.key ∉ acc.seen) (lengths : acc.sumM.length = ticket.marginals.length) :
    Accounts hemera (tickets ++ [ticket]) (absorbTicket hemera acc ticket) := by
  have grown : SeenOf (absorbTicket hemera acc ticket) (tickets ++ [ticket]) := seen.absorb ticket
  have width : (List.zipWith (· + ·) acc.sumM ticket.marginals).length = acc.sumM.length := by
    rw [List.length_zipWith, ← lengths, Nat.min_self]
  have size : (acc.seen.insert (ticket.miner, ticket.nonce)).size = acc.seen.size + 1 := by
    rw [Std.ExtTreeSet.size_insert]
    exact if_neg new
  obtain ⟨counted, dimension, summed, _⟩ := accounts
  rw [seen.sampled] at dimension summed
  rw [absorbTicket_fresh hemera lengths new] at grown ⊢
  refine committed_accounts grown ?_ ?_ ?_
  · change satAdd acc.k 1 = lenU64 (acc.seen.insert (ticket.miner, ticket.nonce)).size
    rw [counted, size, ← lenU64_one, satAdd_lenU64]
  · intro other member
    rw [firstByKey_of_new (mt (seen ticket.key).mpr new), List.mem_append,
      List.mem_singleton] at member
    rcases member with before | rfl
    · exact (dimension other before).trans width.symm
    · exact lengths.symm.trans width.symm
  · intro i
    have entry := getD_zipWith_add lengths i
    rw [firstByKey_of_new (mt (seen ticket.key).mpr new), List.map_append, List.sum_append,
      ← summed]
    simpa [sums] using entry

/-- An accumulator without tickets takes any dimension. -/
theorem Accounts.adopt (accounts : Accounts hemera [] acc) (seen : SeenOf acc []) (n : Nat) :
    Accounts hemera [] { acc with sumM := List.replicate n 0 } := by
  have idle : acc.k = 0 := (accounts.idle_iff seen).mpr rfl
  refine ⟨accounts.counted, ?_, ?_, ?_⟩
  · intro ticket member
    simp [sampled] at member
  · intro i
    exact congrFun (sums_empty n) i
  · intro counts
    rw [idle] at counts
    exact absurd counts (by decide)

theorem absorbTicket_adopts (new : ticket.key ∉ acc.seen)
    (mismatch : acc.sumM.length ≠ ticket.marginals.length) (idle : acc.k = 0) :
    absorbTicket hemera acc ticket = absorbTicket hemera
      { acc with sumM := List.replicate ticket.marginals.length 0 } ticket := by
  have unknown : ¬ acc.seen.contains (ticket.miner, ticket.nonce) = true := new
  simp only [absorbTicket, if_neg unknown, idle, List.length_replicate, ne_eq, not_true_eq_false,
    and_false, if_false, if_pos mismatch]

theorem absorbTicket_drops (new : ticket.key ∉ acc.seen)
    (mismatch : acc.sumM.length ≠ ticket.marginals.length) (busy : acc.k ≠ 0) :
    absorbTicket hemera acc ticket =
      { acc with seen := acc.seen.insert (ticket.miner, ticket.nonce) } := by
  have unknown : ¬ acc.seen.contains (ticket.miner, ticket.nonce) = true := new
  rw [absorbTicket, if_neg unknown, if_pos ⟨mismatch, busy⟩]

/-- A dropped ticket is among the samples all the same. -/
theorem absorb_accounts_iff (accounts : Accounts hemera tickets acc) (seen : SeenOf acc tickets) :
    Accounts hemera (tickets ++ [ticket]) (absorbTicket hemera acc ticket) ↔ Takes acc ticket := by
  by_cases known : ticket.key ∈ acc.seen
  · exact iff_of_true (accounts.absorb_known seen known) (.inl known)
  by_cases lengths : acc.sumM.length = ticket.marginals.length
  · exact iff_of_true (accounts.absorb_fitting seen known lengths) (.inr (.inr lengths))
  by_cases idle : acc.k = 0
  · refine iff_of_true ?_ (.inr (.inl idle))
    obtain rfl := (accounts.idle_iff seen).mp idle
    rw [absorbTicket_adopts known lengths idle]
    exact (accounts.adopt seen _).absorb_fitting seen known List.length_replicate
  · refine iff_of_false ?_ (by simp [Takes, known, lengths, idle])
    intro after
    have member : ticket ∈ sampled (absorbTicket hemera acc ticket).seen (tickets ++ [ticket]) := by
      rw [(seen.absorb ticket).sampled, firstByKey_of_new (mt (seen ticket.key).mpr known)]
      exact List.mem_append_right _ (List.mem_singleton_self ticket)
    have width := after.dimension ticket member
    rw [absorbTicket_drops known lengths idle] at width
    exact lengths width.symm

/-- The two sides have one dimension, or one of them is idle. -/
def Joins (left right : ClusterAcc) : Prop :=
  left.sumM.length = right.sumM.length ∨ left.k = 0 ∨ right.k = 0

theorem keys_apart (leftSeen : SeenOf left tickets) (rightSeen : SeenOf right others)
    (disjoint : (left.seen ∩ right.seen).size = 0) :
    ∀ sample ∈ tickets.map SettlementTicket.key, sample ∉ others.map SettlementTicket.key := by
  intro sample member other
  have both : sample ∈ left.seen ∩ right.seen :=
    Std.ExtTreeSet.mem_inter_iff.mpr ⟨(leftSeen sample).mpr member, (rightSeen sample).mpr other⟩
  rw [Std.ExtTreeSet.eq_empty_iff_size_eq_zero.mpr disjoint] at both
  exact Std.ExtTreeSet.not_mem_empty both

theorem Accounts.fold_fitting (leftAccounts : Accounts hemera tickets left)
    (leftSeen : SeenOf left tickets) (rightAccounts : Accounts hemera others right)
    (rightSeen : SeenOf right others) (disjoint : (left.seen ∩ right.seen).size = 0)
    (lengths : left.sumM.length = right.sumM.length) :
    Accounts hemera (tickets ++ others) (foldAcc hemera left right) := by
  have united : SeenOf (foldAcc hemera left right) (tickets ++ others) := leftSeen.fold rightSeen
  have first := firstByKey_append (keys_apart leftSeen rightSeen disjoint)
  have width : (List.zipWith (· + ·) left.sumM right.sumM).length = left.sumM.length := by
    rw [List.length_zipWith, ← lengths, Nat.min_self]
  obtain ⟨leftCounted, leftDimension, leftSummed, _⟩ := leftAccounts
  obtain ⟨rightCounted, rightDimension, rightSummed, _⟩ := rightAccounts
  rw [leftSeen.sampled] at leftDimension leftSummed
  rw [rightSeen.sampled] at rightDimension rightSummed
  rw [foldAcc, if_pos lengths, if_pos disjoint] at united ⊢
  refine committed_accounts united ?_ ?_ ?_
  · change satAdd left.k right.k = lenU64 (left.seen ∪ right.seen).size
    rw [leftCounted, rightCounted, satAdd_lenU64, size_union_of_inter_empty disjoint]
  · intro ticket member
    rw [first, List.mem_append] at member
    rcases member with inLeft | inRight
    · exact (leftDimension ticket inLeft).trans width.symm
    · exact (rightDimension ticket inRight).trans (lengths.symm.trans width.symm)
  · intro i
    rw [first, List.map_append, List.sum_append, ← leftSummed, ← rightSummed]
    exact getD_zipWith_add lengths i

/-- The side that is kept accounts for its tickets, if the other has none. -/
theorem Accounts.keep (accounts : Accounts hemera tickets acc) (seen : SeenOf acc tickets)
    {united : Samples} (unitedSeen : SeenOf { acc with seen := united } tickets) :
    Accounts hemera tickets
      (ClusterAcc.committed hemera { acc with seen := united, k := lenU64 united.size }) := by
  obtain ⟨_, dimension, summed, _⟩ := accounts
  rw [seen.sampled] at dimension summed
  exact committed_accounts unitedSeen rfl dimension summed

theorem fold_accounts_iff (leftAccounts : Accounts hemera tickets left)
    (leftSeen : SeenOf left tickets) (rightAccounts : Accounts hemera others right)
    (rightSeen : SeenOf right others) (disjoint : (left.seen ∩ right.seen).size = 0) :
    Accounts hemera (tickets ++ others) (foldAcc hemera left right) ↔ Joins left right := by
  by_cases lengths : left.sumM.length = right.sumM.length
  · exact iff_of_true (leftAccounts.fold_fitting leftSeen rightAccounts rightSeen disjoint lengths)
      (.inl lengths)
  have united : SeenOf (foldAcc hemera left right) (tickets ++ others) := leftSeen.fold rightSeen
  by_cases rightIdle : right.k = 0
  · refine iff_of_true ?_ (.inr (.inr rightIdle))
    have kept : left.k ≥ right.k := by
      rw [rightIdle]
      exact UInt64.zero_le
    obtain rfl := (rightAccounts.idle_iff rightSeen).mp rightIdle
    rw [List.append_nil] at united ⊢
    rw [foldAcc, if_neg lengths, if_pos kept] at united ⊢
    exact leftAccounts.keep leftSeen united
  by_cases leftIdle : left.k = 0
  · refine iff_of_true ?_ (.inr (.inl leftIdle))
    have kept : ¬ left.k ≥ right.k := by
      rw [leftIdle, ge_iff_le, UInt64.le_zero_iff]
      exact rightIdle
    obtain rfl := (leftAccounts.idle_iff leftSeen).mp leftIdle
    rw [List.nil_append] at united ⊢
    rw [foldAcc, if_neg lengths, if_neg kept] at united ⊢
    exact rightAccounts.keep rightSeen united
  · refine iff_of_false ?_ (by simp [Joins, lengths, leftIdle, rightIdle])
    intro after
    -- a ticket of either side is among the samples, and both have the dimension of their side
    have first := firstByKey_append (keys_apart leftSeen rightSeen disjoint)
    have leftInhabited : firstByKey SettlementTicket.key tickets ≠ [] :=
      mt firstByKey_eq_nil_iff.mp (mt (leftAccounts.idle_iff leftSeen).mpr leftIdle)
    have rightInhabited : firstByKey SettlementTicket.key others ≠ [] :=
      mt firstByKey_eq_nil_iff.mp (mt (rightAccounts.idle_iff rightSeen).mpr rightIdle)
    obtain ⟨ticket, member⟩ := List.exists_mem_of_ne_nil _ leftInhabited
    obtain ⟨other, otherMember⟩ := List.exists_mem_of_ne_nil _ rightInhabited
    have dimension := after.dimension
    rw [united.sampled, first] at dimension
    have leftWidth := leftAccounts.dimension ticket (by rwa [leftSeen.sampled])
    have rightWidth := rightAccounts.dimension other (by rwa [rightSeen.sampled])
    have leftAfter := dimension ticket (List.mem_append_left _ member)
    have rightAfter := dimension other (List.mem_append_right _ otherMember)
    omega

end Steps

/-! Runs. -/

/-- How an accumulator is made. -/
inductive Assembly where
  | empty (nContrib : Nat)
  | absorb (before : Assembly) (ticket : SettlementTicket)
  | fold (left right : Assembly)

namespace Assembly

def run (hemera : Hemera) : Assembly → Except FoldOverlap ClusterAcc
  | .empty nContrib => .ok (ClusterAcc.empty nContrib)
  | .absorb before ticket => do
      let acc ← before.run hemera
      return absorbTicket hemera acc ticket
  | .fold left right => do
      let left ← left.run hemera
      let right ← right.run hemera
      foldAccChecked hemera left right

/-- All tickets that were absorbed, in their order. -/
def tickets : Assembly → List SettlementTicket
  | .empty _ => []
  | .absorb before ticket => before.tickets ++ [ticket]
  | .fold left right => left.tickets ++ right.tickets

/-- The assembled accumulator accounts for its tickets. -/
def Sound (hemera : Hemera) (assembly : Assembly) : Prop :=
  ∀ acc, assembly.run hemera = .ok acc → Accounts hemera assembly.tickets acc

/-- So does every accumulator on the way. -/
def SoundThroughout (hemera : Hemera) : Assembly → Prop
  | .empty nContrib => Sound hemera (.empty nContrib)
  | .absorb before ticket =>
      before.SoundThroughout hemera ∧ Sound hemera (.absorb before ticket)
  | .fold left right =>
      (left.SoundThroughout hemera ∧ right.SoundThroughout hemera) ∧ Sound hemera (.fold left right)

/-- No step absorbs or folds what does not fit. -/
def Fits (hemera : Hemera) : Assembly → Prop
  | .empty _ => True
  | .absorb before ticket =>
      before.Fits hemera ∧ ∀ acc, before.run hemera = .ok acc → Takes acc ticket
  | .fold left right =>
      (left.Fits hemera ∧ right.Fits hemera) ∧ ∀ leftAcc rightAcc, left.run hemera = .ok leftAcc →
        right.run hemera = .ok rightAcc → (leftAcc.seen ∩ rightAcc.seen).size = 0 →
          Joins leftAcc rightAcc

variable {hemera : Hemera}

theorem SoundThroughout.sound {assembly : Assembly} (sound : assembly.SoundThroughout hemera) :
    assembly.Sound hemera := by
  cases assembly with
  | empty nContrib => exact sound
  | absorb before ticket => exact sound.2
  | fold left right => exact sound.2

theorem run_absorb {before : Assembly} {ticket : SettlementTicket} {acc : ClusterAcc} :
    (Assembly.absorb before ticket).run hemera = .ok acc ↔
      ∃ earlier, before.run hemera = .ok earlier ∧ acc = absorbTicket hemera earlier ticket := by
  rw [run]
  cases before.run hemera with
  | error reason => simp [bind, Except.bind]
  | ok earlier => simp [bind, Except.bind, pure, Except.pure, eq_comm]

theorem run_fold {left right : Assembly} {acc : ClusterAcc} :
    (Assembly.fold left right).run hemera = .ok acc ↔
      ∃ leftAcc rightAcc, left.run hemera = .ok leftAcc ∧ right.run hemera = .ok rightAcc ∧
        (leftAcc.seen ∩ rightAcc.seen).size = 0 ∧ acc = foldAcc hemera leftAcc rightAcc := by
  rw [run]
  cases left.run hemera with
  | error reason => simp [bind, Except.bind]
  | ok leftAcc =>
      cases right.run hemera with
      | error reason => simp [bind, Except.bind]
      | ok rightAcc => simp [bind, Except.bind, foldAccChecked_eq_ok_iff]

/-- The pairs that an accumulator has seen are those of its tickets, dropped or not. -/
theorem run_seen {assembly : Assembly} {acc : ClusterAcc}
    (reached : assembly.run hemera = .ok acc) : SeenOf acc assembly.tickets := by
  induction assembly generalizing acc with
  | empty nContrib =>
      cases reached
      intro sample
      simp [ClusterAcc.empty, tickets]
  | absorb before ticket ih =>
      obtain ⟨earlier, ran, rfl⟩ := run_absorb.mp reached
      exact (ih ran).absorb ticket
  | fold left right leftIh rightIh =>
      obtain ⟨leftAcc, rightAcc, leftRan, rightRan, _, rfl⟩ := run_fold.mp reached
      exact (leftIh leftRan).fold (rightIh rightRan)

theorem empty_sound (nContrib : Nat) : (Assembly.empty nContrib).Sound hemera := by
  intro acc reached
  cases reached
  refine ⟨rfl, ?_, ?_, ?_⟩
  · intro ticket member
    simp [sampled, tickets] at member
  · intro i
    exact congrFun (sums_empty nContrib) i
  · intro counts
    exact absurd counts (by simp [ClusterAcc.empty])

/-- Every accumulator of an assembly accounts for its tickets exactly when every
step fits. -/
theorem assembly_sound_iff_fits (hemera : Hemera) (assembly : Assembly) :
    assembly.SoundThroughout hemera ↔ assembly.Fits hemera := by
  induction assembly with
  | empty nContrib => exact iff_of_true (empty_sound nContrib) trivial
  | absorb before ticket ih =>
      rw [SoundThroughout, Fits, ← ih]
      refine and_congr_right fun sound => ?_
      constructor
      · intro after acc ran
        exact (absorb_accounts_iff (sound.sound acc ran) (run_seen ran)).mp
          (after _ (run_absorb.mpr ⟨acc, ran, rfl⟩))
      · intro takes acc reached
        obtain ⟨earlier, ran, rfl⟩ := run_absorb.mp reached
        exact (absorb_accounts_iff (sound.sound earlier ran) (run_seen ran)).mpr (takes earlier ran)
  | fold left right leftIh rightIh =>
      rw [SoundThroughout, Fits, ← leftIh, ← rightIh]
      refine and_congr_right fun sound => ?_
      obtain ⟨leftSound, rightSound⟩ := sound
      constructor
      · intro after leftAcc rightAcc leftRan rightRan disjoint
        exact (fold_accounts_iff (leftSound.sound leftAcc leftRan) (run_seen leftRan)
          (rightSound.sound rightAcc rightRan) (run_seen rightRan) disjoint).mp
          (after _ (run_fold.mpr ⟨leftAcc, rightAcc, leftRan, rightRan, disjoint, rfl⟩))
      · intro joins acc reached
        obtain ⟨leftAcc, rightAcc, leftRan, rightRan, disjoint, rfl⟩ := run_fold.mp reached
        exact (fold_accounts_iff (leftSound.sound leftAcc leftRan) (run_seen leftRan)
          (rightSound.sound rightAcc rightRan) (run_seen rightRan) disjoint).mpr
          (joins leftAcc rightAcc leftRan rightRan disjoint)

end Assembly

def ticketWith (nonce : UInt64) (marginals : List Fx) : SettlementTicket where
  miner := Particle.zero
  nonce := nonce
  marginals := marginals
  commitment := Particle.zero
  score := 0

/-- Tickets over one and over two contributors. -/
def mixedAssembly : Assembly :=
  .absorb (.absorb (.empty 1) (ticketWith 0 [Fx.one])) (ticketWith 1 [Fx.one, Fx.one])

/-- The second ticket is seen, but neither counted nor summed nor committed to. -/
theorem mixed_dimensions_unaccounted :
    ∃ acc, mixedAssembly.run .truncating = .ok acc ∧ acc.k = 1 ∧ acc.seen.size = 2 ∧
      acc.commitment ≠ accCommitment .truncating acc ∧
      ¬ Accounts .truncating mixedAssembly.tickets acc := by
  refine ⟨_, rfl, ?_⟩
  rw [← and_assoc, ← and_assoc]
  refine ⟨by decide +kernel, ?_⟩
  intro accounts
  exact absurd accounts.counted (by decide +kernel)

end Foculus.Settlement

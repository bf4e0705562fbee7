import Foculus.Epoch.Runner
import Foculus.Settlement.FoldTree

namespace Foculus.Epoch

open Data Settlement

/-! # One epoch from its first claim to its settlement

The claims root sorts the claim ids, so it and the beacon do not depend on the
order in which the claims arrive.  A window that tries a single ticket, against
a target that always wins, settles whenever the budget can be allocated. -/

/-- What `easy_target` is documented to be: a target that always wins. -/
def EasyTargetWins (hemera : Hemera) : Prop :=
  ∀ beacon cluster nonce miner commitment,
    settleScore hemera beacon cluster nonce miner commitment < easyTarget

/-- What two runners of one epoch share. -/
structure Window (crates : Crates) where
  epoch : UInt64
  prevBeacon : Particle
  budget : UInt64
  outerT : UInt64
  signalVdfs : List VdfProof
  base : List Link
  ctx : crates.tru.Context
  params : crates.tru.FocusingParams
  policy : TicketPolicy

namespace Window

variable {crates : Crates}

def start (window : Window crates) : EpochRunner crates.zheng :=
  { EpochRunner.new crates.zheng window.epoch window.prevBeacon with
    budget := window.budget, outerT := window.outerT }

/-- Propose the claims as they arrive, freeze, open the beacon. -/
def opened (window : Window crates) (claims : List RewardClaim) :
    Except EpochError (EpochRunner crates.zheng) := do
  let runner ← claims.foldlM EpochRunner.propose window.start
  let runner ← runner.freeze crates.hemera
  runner.openBeacon crates.hemera window.signalVdfs

def settled (window : Window crates) (claims : List RewardClaim) :
    Except EpochError (EpochRunner crates.zheng) := do
  let runner ← window.opened claims
  runner.settle crates window.base window.ctx window.params window.policy

def artifact (window : Window crates) (ids : List Particle) : BeaconArtifact :=
  openBeacon crates.hemera window.epoch window.prevBeacon (claimsRoot crates.hemera ids)
    (collectSignalOutputs window.signalVdfs) window.outerT

def ready (window : Window crates) (claims : List RewardClaim) : EpochRunner crates.zheng :=
  { window.start with
    claims
    claimsRoot := some (claimsRoot crates.hemera (claims.map RewardClaim.id))
    beacon := some (window.artifact (claims.map RewardClaim.id))
    phase := .beaconReady }

theorem opened_eq (window : Window crates) (claims : List RewardClaim) :
    window.opened claims =
      if claims.isEmpty then .error .emptyClaims
      else if !verifyBeacon crates.hemera (window.artifact (claims.map RewardClaim.id)) then .error .beaconInvalid
      else .ok (window.ready claims) := by
  have proposed := EpochRunner.propose_all window.start rfl claims
  have frozen := EpochRunner.freeze_eq crates.hemera { window.start with claims } rfl
  rw [opened, proposed]
  change EpochRunner.freeze crates.hemera { window.start with claims } >>= _ = _
  rw [frozen]
  dsimp only
  split_ifs with empty invalid
  · rfl
  · exact if_pos invalid
  · exact if_neg invalid

theorem artifact_perm (window : Window crates) {left right : List Particle}
    (permuted : left.Perm right) : window.artifact left = window.artifact right := by
  rw [artifact, artifact, claimsRoot_perm crates.hemera permuted]

/-- The claims root and the beacon, or the error, do not depend on the order. -/
theorem opened_perm (window : Window crates) {left right : List RewardClaim}
    (permuted : left.Perm right) :
    (window.opened left).map (fun runner => (runner.claimsRoot, runner.beacon)) =
      (window.opened right).map fun runner => (runner.claimsRoot, runner.beacon) := by
  have ids := permuted.map RewardClaim.id
  rw [opened_eq, opened_eq, permuted.isEmpty_eq, artifact_perm window ids]
  split_ifs
  · rfl
  · rfl
  · simp only [Except.map, ready, artifact_perm window ids, claimsRoot_perm crates.hemera ids]

/-- One ticket is tried, it wins against the easy target and is precise enough. -/
structure SingleTicket (window : Window crates) : Prop where
  wins : EasyTargetWins crates.hemera
  complete : Step.Complete crates.zheng
  delayed : window.outerT ≠ 0
  funded : window.budget ≠ 0
  want_eq : window.policy.want = 1
  maxAttempts_eq : window.policy.maxAttempts = 1
  settleTarget_eq : window.policy.settleTarget = easyTarget
  precise : ClusterAcc.kMin crates.tru window.policy.precisionEpsilon
    window.policy.precisionDelta = 1

def sample (window : Window crates) (claims : List RewardClaim) : List Fx :=
  let contribs := contributionsWithRho crates.tru claims
  marginals crates.tru window.base window.ctx window.params contribs
    (ordering crates.hemera contribs.length (window.artifact (claims.map RewardClaim.id)).beacon
      (satAdd window.policy.startNonce (lenU64 0)))

theorem single_grind (window : Window crates) (single : window.SingleTicket)
    {claims : List RewardClaim} (nonempty : claims ≠ []) :
    ∃ ticket, grindSettlement crates.hemera crates.tru window.base
        (contributionsWithRho crates.tru claims) window.ctx window.params
        (window.artifact (claims.map RewardClaim.id)).beacon
        (window.artifact (claims.map RewardClaim.id)).claimsRoot window.policy.miner
        window.policy.startNonce window.policy.maxAttempts window.policy.want
        window.policy.settleTarget = [ticket] ∧
      ticket.marginals = window.sample claims := by
  have populated : (contributionsWithRho crates.tru claims).length ≠ 0 := by
    rw [contributionsWithRho_length]
    exact fun none_ => nonempty (List.length_eq_zero_iff.mp none_)
  rw [single.want_eq, single.maxAttempts_eq, single.settleTarget_eq]
  change ∃ ticket, grindFrom _ _ _ _ _ _ _ _ _ _ _ _ 1 0 [] = [ticket] ∧ _
  rw [grindFrom, if_neg (by simp)]
  simp only [trySettlementTicket, if_neg populated]
  rw [if_neg (by exact UInt64.not_le.mpr (single.wins ..))]
  exact ⟨_, rfl, rfl⟩

@[simp] theorem sample_length (window : Window crates) (claims : List RewardClaim) :
    (window.sample claims).length = claims.length := by
  rw [sample, marginals_length, contributionsWithRho_length]

def sampleShares (window : Window crates) (claims : List RewardClaim) : List (Particle × Fx) :=
  ((claims.map RewardClaim.neuron).zip (window.sample claims)).map fun (neuron, sum) =>
    (neuron, crates.tru.mul sum (crates.tru.div Fx.one (crates.tru.fromInt 1)))

theorem single_selfFold (hemera : Hemera) (ticket : SettlementTicket) {n : Nat}
    (dimension : ticket.marginals.length = n) :
    (selfFold hemera n [ticket]).sumM = ticket.marginals ∧ (selfFold hemera n [ticket]).k = 1 := by
  have member (other : SettlementTicket) (listed : other ∈ [ticket]) : other.marginals.length = n := by
    cases List.mem_singleton.mp listed
    exact dimension
  obtain ⟨sums, counted⟩ := selfFold_distinct hemera member (List.nodup_singleton _)
  refine ⟨?_, counted.trans lenU64_one⟩
  rw [sums]
  change List.zipWith (· + ·) (List.replicate n 0) ticket.marginals = ticket.marginals
  apply List.ext_getElem
  · simp [dimension]
  · intro i left right
    simp

theorem single_leaf (window : Window crates) (single : window.SingleTicket)
    {claims : List RewardClaim} {ticket : SettlementTicket}
    (sampled : ticket.marginals = window.sample claims) :
    let contribs := contributionsWithRho crates.tru claims
    let leaf := selfFold crates.hemera contribs.length [ticket]
    leaf.meanShares crates.tru (contribs.map Contribution.neuron) = window.sampleShares claims ∧
      leaf.meetsPrecision crates.tru window.policy.precisionEpsilon
        window.policy.precisionDelta = true ∧
      leaf.k ≠ 0 := by
  have dimension : ticket.marginals.length = (contributionsWithRho crates.tru claims).length := by
    rw [sampled, sample_length, contributionsWithRho_length]
  obtain ⟨sums, counted⟩ := single_selfFold crates.hemera ticket dimension
  refine ⟨?_, ?_, ?_⟩
  · rw [ClusterAcc.meanShares, sums, counted, contributionsWithRho_neurons, sampled,
      if_neg (by simp)]
    rfl
  · rw [ClusterAcc.meetsPrecision, single.precise, counted]
    rfl
  · rw [counted]
    decide

/-- With one ticket the epoch settles, if the budget can be allocated. -/
theorem single_settled (window : Window crates) (single : window.SingleTicket)
    {claims : List RewardClaim} (nonempty : claims ≠ []) {shares : List SettledShare}
    (allocated : allocateBudget crates.tru crates.tok (window.sampleShares claims) window.budget
      (directedTotal crates.tru window.base claims window.ctx window.params) = .ok shares) :
    ∃ after receipt, window.settled claims = .ok after ∧ after.receipt = some receipt ∧
      receipt.shares = shares := by
  have verified : verifyBeacon crates.hemera (window.artifact (claims.map RewardClaim.id)) = true :=
    verifyBeacon_openBeacon crates.hemera _ _ _ _ single.delayed
  have ready : window.opened claims = .ok (window.ready claims) := by
    rw [opened_eq, if_neg (by simpa using nonempty), verified]
    rfl
  obtain ⟨ticket, ground, sampled⟩ := window.single_grind single nonempty
  have won : ∀ won ∈ [ticket], ∃ nonce, trySettlementTicket crates.hemera crates.tru window.base
      (contributionsWithRho crates.tru claims) window.ctx window.params
      (window.artifact (claims.map RewardClaim.id)).beacon
      (window.artifact (claims.map RewardClaim.id)).claimsRoot window.policy.miner nonce
      window.policy.settleTarget = some won := by
    rw [← ground]
    exact grindSettlement_sound
  obtain ⟨ticketSeal, sealed, _⟩ :=
    proveReplayedBatch_ok single.complete (List.cons_ne_nil ticket []) won
  obtain ⟨shared, precise, sampledOnce⟩ := window.single_leaf single sampled
  obtain ⟨foldSeal, proven, foldVerified⟩ := proveFoldTree_ok single.complete crates.hemera
    (window.artifact (claims.map RewardClaim.id)).beacon
    (window.artifact (claims.map RewardClaim.id)).claimsRoot
    (List.cons_ne_nil (selfFold crates.hemera (contributionsWithRho crates.tru claims).length
      [ticket]) [])
  have ticketsSealed : EpochRunner.sealTickets crates window.base
      (contributionsWithRho crates.tru claims) window.ctx window.params
      (window.artifact (claims.map RewardClaim.id)).beacon
      (window.artifact (claims.map RewardClaim.id)).claimsRoot [ticket] =
        .ok (some ticketSeal) := by
    rw [EpochRunner.sealTickets, if_neg (by simp), sealed]
    rfl
  have sealedLeaves : ∃ receipt, EpochRunner.settleLeaves crates (window.ready claims) window.base
      window.ctx window.params window.policy (window.artifact (claims.map RewardClaim.id))
      (contributionsWithRho crates.tru claims)
      (directedTotal crates.tru window.base claims window.ctx window.params) [ticket]
      [selfFold crates.hemera (contributionsWithRho crates.tru claims).length [ticket]] =
        .ok receipt ∧ receipt.shares = shares :=
    ⟨_, EpochRunner.settleLeaves_eq_ok_iff.mpr ⟨some ticketSeal, _, foldSeal, shares, ticketsSealed,
      proven, foldVerified, precise, by rw [← allocated, ← shared]; rfl, rfl⟩, rfl⟩
  obtain ⟨receipt, leaves, paid⟩ := sealedLeaves
  refine ⟨{ window.ready claims with receipt := some receipt, phase := .settled }, receipt, ?_, rfl,
    paid⟩
  rw [settled, ready]
  exact EpochRunner.settle_eq_ok rfl single.funded rfl verified ground sampledOnce leaves

end Window

end Foculus.Epoch

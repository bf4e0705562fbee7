import Foculus.Live.SignalClaims

namespace Foculus.Live

open Data Settlement Epoch

/-! # The certificates of a full or cell node

A settlement that fails leaves the node within its epoch; one that succeeds
yields a certificate that the node's own check accepts, and begins the next
epoch from the beacon of that certificate. -/

/-- The runner is in this epoch, after the beacon `prev`; it has claims once they
are frozen, and an open beacon is its own. -/
structure InEpoch (crates : Crates) (number : UInt64) (prev : Particle)
    (runner : EpochRunner crates.zheng) : Prop where
  number_eq : runner.epoch = number
  prev_eq : runner.prevBeacon = prev
  claimed : runner.phase ≠ .propose → runner.claims ≠ []
  opened : ∀ art, runner.beacon = some art →
    verifyBeacon crates.hemera art = true ∧ art.epoch = number ∧ art.prev = prev

section Runner

variable {crates : Crates} {number : UInt64} {prev : Particle}
  {runner after : EpochRunner crates.zheng}

theorem InEpoch.new (crates : Crates) (number : UInt64) (prev : Particle) :
    InEpoch crates number prev (EpochRunner.new crates.zheng number prev) where
  number_eq := rfl
  prev_eq := rfl
  claimed closed := absurd rfl closed
  opened _ present := nomatch present

/-- The invariant does not read what a settlement is configured with. -/
theorem InEpoch.configure (within : InEpoch crates number prev runner) (outerT budget : UInt64) :
    InEpoch crates number prev { runner with outerT, budget } :=
  ⟨within.number_eq, within.prev_eq, within.claimed, within.opened⟩

theorem InEpoch.withClaim (within : InEpoch crates number prev runner) (sig : LiveSignal) :
    InEpoch crates number prev (withClaim runner sig) := by
  rw [Live.withClaim]
  split_ifs with accepting
  · exact ⟨within.number_eq, within.prev_eq, fun closed => absurd accepting closed, within.opened⟩
  · exact within

theorem InEpoch.freeze (frozen : runner.freeze crates.hemera = .ok after)
    (within : InEpoch crates number prev runner) : InEpoch crates number prev after := by
  obtain ⟨_, claimed, rfl⟩ := EpochRunner.freeze_eq_ok_iff.mp frozen
  exact ⟨within.number_eq, within.prev_eq, fun _ => claimed, within.opened⟩

theorem InEpoch.openBeacon {signalVdfs : List VdfProof}
    (opens : runner.openBeacon crates.hemera signalVdfs = .ok after)
    (within : InEpoch crates number prev runner) : InEpoch crates number prev after := by
  obtain ⟨frozen, root, art, _, isArt, verified, rfl⟩ := EpochRunner.openBeacon_eq_ok opens
  have claimed : runner.claims ≠ [] := within.claimed (by rw [frozen]; decide)
  refine ⟨within.number_eq, within.prev_eq, fun _ => claimed, ?_⟩
  intro other present
  cases present
  exact ⟨verified, isArt ▸ within.number_eq, isArt ▸ within.prev_eq⟩

theorem InEpoch.settle {base : List Link} {ctx : crates.tru.Context}
    {params : crates.tru.FocusingParams} {policy : TicketPolicy} {peerAccs : List ClusterAcc}
    (settled : runner.settleWithPeers crates base ctx params policy peerAccs = .ok after)
    (within : InEpoch crates number prev runner) : InEpoch crates number prev after := by
  obtain ⟨ready, _, _, _, _, _, _, _, rfl⟩ := EpochRunner.settleWithPeers_eq_ok_iff.mp settled
  have claimed : runner.claims ≠ [] := within.claimed (by rw [ready]; decide)
  exact ⟨within.number_eq, within.prev_eq, fun _ => claimed, within.opened⟩

theorem InEpoch.standing (crates : Crates) (number : UInt64) (prev : Particle) :
    Standing crates (InEpoch crates number prev) where
  configure outerT budget within := within.configure outerT budget
  freeze frozen within := within.freeze frozen
  openBeacon opens within := within.openBeacon opens
  settle settled within := within.settle settled

end Runner

/-- A full or cell node in this epoch, with a tip that a certificate may state. -/
structure Issuing (crates : Crates) (number : UInt64) (prev : Particle)
    (node : LiveNode crates.zheng) : Prop where
  keeping : node.mode ≠ .light
  trusted : node.tip.grade4 = true
  within : InEpoch crates number prev node.epoch

section Tips

variable {zheng : Zheng}

theorem genesisTip_grade4 (hemera : Hemera) (zheng : Zheng) :
    (LiveNode.genesisTip hemera zheng).1.grade4 = true := by
  rw [LiveNode.genesisTip]
  split
  · rename_i tip seals
    exact TipProver.sealTip_grade4 seals
  · rfl

/-- A tip that the node moves is sealed, or applied by the node itself. -/
theorem bumpTip_grade4 (hemera : Hemera) (node : LiveNode zheng)
    (trusted : node.tip.grade4 = true) : (node.bumpTip hemera).1.tip.grade4 = true := by
  simp only [LiveNode.bumpTip]
  split
  · split
    · exact trusted
    · split
      · exact trusted
      · rename_i tip seals
        exact TipProver.sealTip_grade4 seals
  · rfl

theorem bumpTip_mode (hemera : Hemera) (node : LiveNode zheng) :
    (node.bumpTip hemera).1.mode = node.mode := by
  simp only [LiveNode.bumpTip]
  split
  · split
    · rfl
    · split <;> rfl
  · rfl

end Tips

section Calls

variable {crates : Crates} {number : UInt64} {prev : Particle} {node : LiveNode crates.zheng}

theorem Issuing.new (crates : Crates) {mode : NodeMode} (keeping : mode ≠ .light)
    (neuron : Particle) :
    Issuing crates 1 genesisPrev (LiveNode.new crates.hemera crates.zheng mode neuron) where
  keeping := keeping
  trusted := by
    simp only [LiveNode.new, if_neg keeping]
    exact genesisTip_grade4 crates.hemera crates.zheng
  within := .new crates 1 genesisPrev

theorem Issuing.withRunner (issuing : Issuing crates number prev node)
    {epoch : EpochRunner crates.zheng} (within : InEpoch crates number prev epoch) :
    Issuing crates number prev { node with epoch } :=
  ⟨issuing.keeping, issuing.trusted, within⟩

theorem Issuing.credit (issuing : Issuing crates number prev node)
    (receipt : SettleReceipt crates.zheng) (mintHeight : UInt64) :
    Issuing crates number prev (node.creditReceipt receipt mintHeight) := by
  rw [LiveNode.creditReceipt_eq]
  exact ⟨issuing.keeping, issuing.trusted, issuing.within⟩

theorem Issuing.bumpTip (issuing : Issuing crates number prev node) :
    Issuing crates number prev (node.bumpTip crates.hemera).1 where
  keeping := by
    rw [bumpTip_mode]
    exact issuing.keeping
  trusted := bumpTip_grade4 crates.hemera node issuing.trusted
  within := by
    rw [(bumpTip_intake crates.hemera node).2]
    exact issuing.within

theorem Issuing.ingestSignal (issuing : Issuing crates number prev node) (sig : LiveSignal) :
    Issuing crates number prev (node.ingestSignal crates sig).1 := by
  rw [LiveNode.ingestSignal, proposeSignal_eq]
  split_ifs
  · exact issuing
  · exact issuing
  · exact Issuing.bumpTip ⟨issuing.keeping, issuing.trusted, issuing.within.withClaim sig⟩

theorem Issuing.freezeAndBeacon (issuing : Issuing crates number prev node) :
    Issuing crates number prev (node.freezeAndBeacon crates).1 := by
  obtain ⟨epoch, after, within⟩ :=
    (InEpoch.standing crates number prev).freezeAndBeacon issuing.within
  rw [after]
  exact issuing.withRunner within

theorem Issuing.acceptEpochCert (issuing : Issuing crates number prev node)
    (cert : EpochCertificate crates.zheng) (claims : Option (List RewardClaim)) :
    Issuing crates number prev (node.acceptEpochCert crates cert claims).1 := by
  have imported : node.importTip cert = node := if_neg fun light => issuing.keeping light.1
  rw [LiveNode.acceptEpochCert]
  split_ifs
  · exact issuing
  · dsimp only
    rw [imported]
    cases cert.settle with
    | none => exact ⟨issuing.keeping, issuing.trusted, issuing.within⟩
    | some receipt =>
        have credited := issuing.credit receipt cert.tipHeight
        exact ⟨credited.keeping, credited.trusted, credited.within⟩

end Calls

/-- The node has settled its epoch with this beacon and this receipt. -/
structure Settled (crates : Crates) (node : LiveNode crates.zheng) (art : BeaconArtifact)
    (receipt : SettleReceipt crates.zheng) : Prop where
  opened : node.epoch.beacon = some art
  phase : node.epoch.phase = .settled
  epoch : receipt.epoch = node.epoch.epoch
  beacon : receipt.beacon = art.beacon
  root : receipt.claimsRoot = art.claimsRoot
  total : receipt.directedTotal = directedTotal crates.tru node.rewardBase node.epoch.claims
    crates.tru.noContext crates.tru.defaultParams
  verified : verifyReceipt crates.hemera crates.zheng receipt = true

section Settle

variable {crates : Crates} {number : UInt64} {prev : Particle}
  {node settled : LiveNode crates.zheng} {art : BeaconArtifact}
  {receipt : SettleReceipt crates.zheng}

theorem Settled.of_settleWithPeers {ready : LiveNode crates.zheng}
    {epoch : EpochRunner crates.zheng}
    (settles : ready.epoch.settleWithPeers crates ready.rewardBase crates.tru.noContext
      crates.tru.defaultParams ready.ownPolicy ready.peerAccs = .ok epoch)
    (returned : epoch.receipt = some receipt)
    (verified : verifyReceipt crates.hemera crates.zheng receipt = true) :
    ∃ art, Settled crates { ready with epoch } art receipt := by
  obtain ⟨_, _, art, made, opened, _, _, leaves, rfl⟩ :=
    EpochRunner.settleWithPeers_eq_ok_iff.mp settles
  cases returned
  obtain ⟨_, _, _, _, _, _, _, _, _, rfl⟩ := EpochRunner.settleLeaves_eq_ok_iff.mp leaves
  exact ⟨art, opened, rfl, rfl, rfl, rfl, rfl, verified⟩

/-- A receipt is returned only of a settlement, and only if it verifies. -/
theorem settleOwn_settled (settles : node.settleOwn crates = (settled, .ok receipt)) :
    ∃ art, Settled crates settled art receipt := by
  simp only [LiveNode.settleOwn] at settles
  split_ifs at settles
  · cases settles
  · cases settles
  · split at settles
    · cases settles
    · split at settles
      · cases settles
      · split at settles
        · cases settles
        · rename_i ready _ epoch settling
          split at settles
          · cases settles
          · rename_i made returned
            split_ifs at settles with unverified
            · cases settles
            · cases settles
              exact Settled.of_settleWithPeers settling returned (by simpa using unverified)

theorem Settled.credit (settles : Settled crates node art receipt) (mintHeight : UInt64) :
    Settled crates (node.creditReceipt receipt mintHeight) art receipt := by
  rw [LiveNode.creditReceipt_eq]
  exact ⟨settles.opened, settles.phase, settles.epoch, settles.beacon, settles.root, settles.total,
    settles.verified⟩

/-- The certificate that a settled node issues. -/
def ownCert (node : LiveNode crates.zheng) (art : BeaconArtifact)
    (receipt : SettleReceipt crates.zheng) : EpochCertificate crates.zheng :=
  issueEpochCert crates.hemera node.epoch.epoch node.tip art receipt.claimsRoot (some receipt)
    receipt.ticketSeal none

theorem Settled.claimed (settles : Settled crates node art receipt)
    (issuing : Issuing crates number prev node) : node.epoch.claims ≠ [] :=
  issuing.within.claimed (by rw [settles.phase]; decide)

theorem Settled.total_matches (settles : Settled crates node art receipt)
    (issuing : Issuing crates number prev node) :
    checkOption (directedTotalMatches crates · receipt)
      (node.acceptInputs crates (some node.epoch.claims)) = true := by
  have contributed : contributionsWithRho crates.tru node.epoch.claims ≠ [] := by
    rw [← List.length_pos_iff_ne_nil, contributionsWithRho_length, List.length_pos_iff_ne_nil]
    exact settles.claimed issuing
  rw [LiveNode.acceptInputs, Option.map_some, checkOption, directedTotalMatches, settles.total,
    Bool.and_eq_true, Bool.not_eq_true', List.isEmpty_eq_false_iff]
  exact ⟨contributed, beq_self_eq_true _⟩

theorem Settled.accepted (settles : Settled crates node art receipt)
    (issuing : Issuing crates number prev node) (inputs : Option (SettleVerifyInputs crates.tru))
    (matched : checkOption (directedTotalMatches crates · receipt) inputs = true) :
    verifyEpochCert crates (ownCert node art receipt) inputs = true := by
  obtain ⟨genuine, number, _⟩ := issuing.within.opened art settles.opened
  have trusted : (node.tip.trust == .localApplied || node.tip.trust == .foldDecided) = true :=
    issuing.trusted
  have sealed : checkOption (verifyFoldSeal crates.zheng) receipt.ticketSeal = true := by
    have verified := settles.verified
    simp only [verifyReceipt, Bool.and_eq_true] at verified
    exact verified.1.2
  have receiptAccepted :
      verifySettle crates (ownCert node art receipt) inputs receipt = true := by
    simp only [verifySettle, Bool.and_eq_true, beq_iff_eq]
    exact ⟨⟨⟨⟨settles.verified, settles.epoch, settles.beacon⟩, rfl⟩, sealed⟩, matched⟩
  simp only [verifyEpochCert, Bool.and_eq_true, beq_iff_eq]
  refine ⟨⟨⟨⟨rfl, trusted⟩, genuine⟩, settles.root.symm, ?_⟩, receiptAccepted⟩
  exact number.trans issuing.within.number_eq.symm

/-- The node issues the certificate, accepts it and begins the next epoch. -/
theorem Settled.certifies (settles : Settled crates node art receipt)
    (issuing : Issuing crates number prev node) :
    (node.certifyOwn crates receipt).2 = .ok (ownCert node art receipt) ∧
      Issuing crates (satAdd number 1) art.beacon (node.certifyOwn crates receipt).1 := by
  have accepted := settles.accepted issuing _ (settles.total_matches issuing)
  have follows : node.epoch.nextEpoch =
      .ok (EpochRunner.new crates.zheng (satAdd number 1) art.beacon) := by
    rw [EpochRunner.nextEpoch, settles.opened, ← issuing.within.number_eq]
    exact if_neg (not_not.mpr settles.phase)
  have certified : node.certifyOwn crates receipt =
      (LiveNode.matureRewards { node with
        lastCert := some (ownCert node art receipt)
        peerAccs := []
        epoch := { EpochRunner.new crates.zheng (satAdd number 1) art.beacon with
          budget := node.budget } }, .ok (ownCert node art receipt)) := by
    rw [LiveNode.certifyOwn, settles.opened]
    change (if !verifyEpochCert crates (ownCert node art receipt)
      (node.acceptInputs crates (some node.epoch.claims)) then _ else _) = _
    rw [accepted]
    dsimp only
    rw [follows]
    rfl
  rw [certified]
  exact ⟨rfl, issuing.keeping, issuing.trusted,
    (InEpoch.new crates (satAdd number 1) art.beacon).configure testOuterT node.budget⟩

theorem freezeProposed_error {reason : LiveError}
    (fails : node.freezeProposed crates = .error reason) : reason = .epochError := by
  rw [LiveNode.freezeProposed] at fails
  split_ifs at fails
  split at fails
  · exact (Except.error.inj fails).symm
  · cases fails

theorem openFrozen_error {reason : LiveError} (fails : node.openFrozen crates = .error reason) :
    reason = .epochError := by
  rw [LiveNode.openFrozen] at fails
  split_ifs at fails
  split at fails
  · exact (Except.error.inj fails).symm
  · cases fails

theorem settleOwn_error {reason : LiveError}
    (fails : node.settleOwn crates = (settled, .error reason)) : reason ≠ .certInvalid := by
  rintro rfl
  simp only [LiveNode.settleOwn] at fails
  split_ifs at fails
  · cases fails
  · cases fails
  · split at fails
    · rename_i freezes
      cases fails
      cases freezeProposed_error freezes
    · split at fails
      · rename_i opens
        cases fails
        cases openFrozen_error opens
      · split at fails
        · cases fails
        · split at fails
          · cases fails
          · split_ifs at fails
            · cases fails
            · cases fails

/-- A settlement that fails leaves the node in its epoch; one that succeeds
continues the chain with a certificate that verifies. -/
theorem closeAndSettleEpoch_cases (issuing : Issuing crates number prev node) :
    (∃ reason, (node.closeAndSettleEpoch crates).2 = .error reason ∧ reason ≠ .certInvalid ∧
      Issuing crates number prev (node.closeAndSettleEpoch crates).1) ∨
    ∃ cert, (node.closeAndSettleEpoch crates).2 = .ok cert ∧
      (cert.epoch = number ∧ cert.beacon.prev = prev) ∧
      (verifyEpochCert crates cert none = true ∧
        verifyEpochCert crates cert (node.acceptInputs crates (some node.epoch.claims)) = true) ∧
      Issuing crates (satAdd number 1) cert.beacon.beacon (node.closeAndSettleEpoch crates).1 := by
  have standing := ((InEpoch.standing crates number prev).and
    (claims_standing node.epoch.claims)).settleOwn ⟨issuing.within, rfl⟩
  rw [LiveNode.closeAndSettleEpoch]
  rcases outcome : node.settleOwn crates with ⟨settled, reason | receipt⟩
  · rw [outcome] at standing
    obtain ⟨epoch, rfl, within, _⟩ := standing
    exact .inl ⟨reason, rfl, settleOwn_error outcome, issuing.withRunner within⟩
  · rw [outcome] at standing
    obtain ⟨epoch, rfl, within, claims⟩ := standing
    obtain ⟨art, settles⟩ := settleOwn_settled outcome
    have credited := settles.credit node.tip.height
    have still := (issuing.withRunner within).credit receipt node.tip.height
    obtain ⟨_, _, chained⟩ := still.within.opened art credited.opened
    have inputs : node.acceptInputs crates (some node.epoch.claims) =
        LiveNode.acceptInputs crates
          (LiveNode.creditReceipt { node with epoch } receipt node.tip.height)
          (some (LiveNode.creditReceipt { node with epoch } receipt node.tip.height).epoch.claims) := by
      rw [LiveNode.creditReceipt_eq, ← claims]
      rfl
    have certified := credited.certifies still
    refine .inr ⟨_, certified.1, ⟨still.within.number_eq, chained⟩, ⟨?_, ?_⟩, certified.2⟩
    · exact credited.accepted still none rfl
    · rw [inputs]
      exact credited.accepted still _ (credited.total_matches still)

end Settle

section Runs

variable {crates : Crates} {number : UInt64} {prev : Particle} {node : LiveNode crates.zheng}

/-- A call other than `close_and_settle_epoch` leaves the node in its epoch. -/
theorem perform_issuing (issuing : Issuing crates number prev node) {call : Call crates}
    (elsewhere : call ≠ .closeAndSettleEpoch) : Issuing crates number prev (perform node call) := by
  cases call with
  | ingestSignal sig => exact issuing.ingestSignal sig
  | link «from» «to» amount valence => exact issuing.ingestSignal _
  | absorbPeerAcc acc =>
      rw [perform, LiveNode.absorbPeerAcc, if_neg issuing.keeping]
      exact ⟨issuing.keeping, issuing.trusted, issuing.within⟩
  | freezeAndBeacon => exact issuing.freezeAndBeacon
  | closeAndSettleEpoch => exact absurd rfl elsewhere
  | acceptEpochCert cert claims => exact issuing.acceptEpochCert cert claims
  | lightJoin tip =>
      rw [perform, LiveNode.lightJoin, if_pos issuing.keeping]
      exact issuing
  | lightAdvance height root =>
      rw [perform, LiveNode.lightAdvance, if_pos issuing.keeping]
      exact issuing
  | configure rewardBase budget settleDepth =>
      exact ⟨issuing.keeping, issuing.trusted, issuing.within⟩

/-- The certificate that a call returns. -/
def returnedBy (node : LiveNode crates.zheng) : Call crates → Option (EpochCertificate crates.zheng)
  | .closeAndSettleEpoch => (node.closeAndSettleEpoch crates).2.toOption
  | _ => none

/-- The certificates that `close_and_settle_epoch` returns in the course of the calls. -/
def certificates (node : LiveNode crates.zheng) :
    List (Call crates) → List (EpochCertificate crates.zheng)
  | [] => []
  | call :: rest => (returnedBy node call).toList ++ certificates (perform node call) rest

/-- What a call returns and the epoch it leaves the node in. -/
theorem perform_cases (issuing : Issuing crates number prev node) (call : Call crates) :
    returnedBy node call = none ∧ Issuing crates number prev (perform node call) ∨
      ∃ cert, returnedBy node call = some cert ∧ cert.epoch = number ∧ cert.beacon.prev = prev ∧
        Issuing crates (satAdd number 1) cert.beacon.beacon (perform node call) := by
  by_cases closing : call = .closeAndSettleEpoch
  · subst closing
    rcases closeAndSettleEpoch_cases issuing with
      ⟨reason, failed, _, still⟩ | ⟨cert, issued, ⟨epoch, chained⟩, _, next⟩
    · exact .inl ⟨by rw [returnedBy, failed]; rfl, still⟩
    · exact .inr ⟨cert, by rw [returnedBy, issued]; rfl, epoch, chained, next⟩
  · refine .inl ⟨?_, perform_issuing issuing closing⟩
    cases call with
    | closeAndSettleEpoch => exact absurd rfl closing
    | _ => rfl

/-- The first certificate builds on the beacon that the node starts from, and
every other one on the beacon of the certificate before it. -/
theorem certificates_chain (calls : List (Call crates)) (issuing : Issuing crates number prev node) :
    (∀ first ∈ (certificates node calls).head?,
      first.epoch = number ∧ first.beacon.prev = prev) ∧
    (certificates node calls).IsChain
      fun earlier later => later.beacon.prev = earlier.beacon.beacon := by
  induction calls generalizing node number prev with
  | nil => exact ⟨by simp [certificates], List.isChain_nil⟩
  | cons call rest ih =>
      rw [certificates]
      rcases perform_cases issuing call with ⟨quiet, still⟩ | ⟨cert, returned, epoch, chained, next⟩
      · rw [quiet]
        exact ih still
      · rw [returned]
        obtain ⟨first, chain⟩ := ih next
        refine ⟨fun other present => ?_, List.isChain_cons.mpr ⟨fun later present => ?_, chain⟩⟩
        · cases present
          exact ⟨epoch, chained⟩
        · exact (first later present).2

theorem certificates_epochs (calls : List (Call crates))
    (issuing : Issuing crates number prev node)
    (below : ∀ cert ∈ certificates node calls, cert.epoch.toNat < 2 ^ 64 - 1) :
    (certificates node calls).map (fun cert => cert.epoch.toNat) =
      List.range' number.toNat (certificates node calls).length := by
  induction calls generalizing node number prev with
  | nil => rfl
  | cons call rest ih =>
      rw [certificates] at below ⊢
      rcases perform_cases issuing call with ⟨quiet, still⟩ | ⟨cert, returned, epoch, _, next⟩
      · rw [quiet] at below ⊢
        exact ih still below
      · rw [returned] at below ⊢
        have bound := below cert List.mem_cons_self
        have later := ih next fun other member => below other (List.mem_cons_of_mem cert member)
        have following : (satAdd number 1).toNat = number.toNat + 1 := by
          rw [epoch] at bound
          exact satAdd_toNat (Nat.add_lt_of_lt_sub bound)
        rw [following] at later
        change cert.epoch.toNat :: List.map _ (certificates (perform node call) rest) =
          List.range' number.toNat ((certificates (perform node call) rest).length + 1)
        rw [later, epoch, List.range'_succ]

theorem run_issuing (crates : Crates) {mode : NodeMode} (keeping : mode ≠ .light)
    (neuron : Particle) (calls : List (Call crates)) :
    ∃ number prev, Issuing crates number prev (nodeAfter crates mode neuron calls) := by
  induction calls using List.reverseRecOn with
  | nil => exact ⟨1, genesisPrev, .new crates keeping neuron⟩
  | append_singleton calls call ih =>
      obtain ⟨number, prev, issuing⟩ := ih
      rw [nodeAfter_append]
      rcases perform_cases issuing call with ⟨_, still⟩ | ⟨cert, _, _, _, next⟩
      · exact ⟨number, prev, still⟩
      · exact ⟨_, _, next⟩

/-- The certificates that a new node returns in the course of the calls. -/
def issuedCerts (crates : Crates) (mode : NodeMode) (neuron : Particle) (calls : List (Call crates)) :
    List (EpochCertificate crates.zheng) :=
  certificates (LiveNode.new crates.hemera crates.zheng mode neuron) calls

/-- After any run of a full or cell node, settling does not fail on the node's own
certificate, and a certificate that it returns is accepted, alone and against
the base and the claims of the node.  The certificates of the run are those of
the epochs from 1 on, and each builds on the beacon of the one before. -/
theorem own_certificates_chain (crates : Crates) (mode : NodeMode) (keeping : mode ≠ .light)
    (neuron : Particle) (calls : List (Call crates)) :
    ((nodeAfter crates mode neuron calls).closeAndSettleEpoch crates).2 ≠ .error .certInvalid ∧
    (∀ cert,
      ((nodeAfter crates mode neuron calls).closeAndSettleEpoch crates).2 = .ok cert →
      verifyEpochCert crates cert none = true ∧
      verifyEpochCert crates cert (some {
        base := (nodeAfter crates mode neuron calls).rewardBase
        claims := (nodeAfter crates mode neuron calls).epoch.claims
        ctx := crates.tru.noContext
        params := crates.tru.defaultParams }) = true) ∧
    (∀ first ∈ (issuedCerts crates mode neuron calls).head?,
      first.epoch = 1 ∧ first.beacon.prev = genesisPrev) ∧
    ((issuedCerts crates mode neuron calls).IsChain
      fun earlier later => later.beacon.prev = earlier.beacon.beacon) ∧
    ((∀ cert ∈ issuedCerts crates mode neuron calls, cert.epoch.toNat < 2 ^ 64 - 1) →
      (issuedCerts crates mode neuron calls).map (fun cert => cert.epoch.toNat) =
        List.range' 1 (issuedCerts crates mode neuron calls).length) := by
  obtain ⟨number, prev, issuing⟩ := run_issuing crates keeping neuron calls
  have fresh := Issuing.new crates keeping neuron
  obtain ⟨first, chain⟩ := certificates_chain calls fresh
  refine ⟨?_, ?_, first, chain, certificates_epochs calls fresh⟩
  · intro invalid
    rcases closeAndSettleEpoch_cases issuing with ⟨reason, failed, other, _⟩ | ⟨cert, returned, _⟩
    · exact other (Except.error.inj (failed.symm.trans invalid))
    · cases returned.symm.trans invalid
  · intro cert issued
    rcases closeAndSettleEpoch_cases issuing with ⟨reason, failed, _⟩ | ⟨own, returned, _, accepted, _⟩
    · cases failed.symm.trans issued
    · cases returned.symm.trans issued
      exact accepted

/-- Two epochs, the first after an attempt without claims and one without a budget. -/
def twoEpochs : List (Call sampleCrates) :=
  [.closeAndSettleEpoch, .ingestSignal (namedSignal 1), .configure [] 0 2, .closeAndSettleEpoch,
    .configure [] 1000 2, .closeAndSettleEpoch, .ingestSignal (namedSignal 2), .closeAndSettleEpoch]

theorem own_certificates_chain_two_epochs :
    NodeMode.full ≠ .light ∧
    (issuedCerts sampleCrates .full (Particle.padded [7]) twoEpochs).map
      (fun cert => cert.epoch.toNat) = [1, 2] := by
  have chain := own_certificates_chain sampleCrates .full (by decide) (Particle.padded [7]) twoEpochs
  have bounded : (issuedCerts sampleCrates .full (Particle.padded [7]) twoEpochs).length = 2 ∧
      ∀ cert ∈ issuedCerts sampleCrates .full (Particle.padded [7]) twoEpochs,
        cert.epoch.toNat < 2 ^ 64 - 1 := by
    decide +kernel
  refine ⟨by decide, (chain.2.2.2.2 bounded.2).trans ?_⟩
  rw [bounded.1]
  rfl

end Runs

end Foculus.Live

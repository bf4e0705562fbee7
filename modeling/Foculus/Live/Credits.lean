import Foculus.Live.Node

namespace Foculus.Live

open Data Settlement Epoch

/-! # What a node is credited with

A node keeps the hashes of the receipts it has credited, and a receipt whose
hash is among them is passed over.  The journal of a run lists the credits in
the order in which they were made; every entry of `pending_rewards` and
everything in `matured_reward` comes from one of them. -/

structure Credit (zheng : Zheng) where
  receipt : SettleReceipt zheng
  amount : UInt64
  mintHeight : UInt64

namespace Credit

variable {zheng : Zheng}

def hash (credit : Credit zheng) : Particle := credit.receipt.receiptHash

def reward (credit : Credit zheng) : PendingReward :=
  ⟨credit.amount, credit.receipt.receiptHash, credit.mintHeight⟩

end Credit

namespace LiveNode

variable {zheng : Zheng}

def contribution (node : LiveNode zheng) (receipt : SettleReceipt zheng) (mintHeight : UInt64) :
    List (Credit zheng) :=
  if node.creditedReceipts.contains receipt.receiptHash then []
  else if shareOf receipt node.neuron > 0 then
    [⟨receipt, shareOf receipt node.neuron, mintHeight⟩]
  else []

theorem creditReceipt_eq (node : LiveNode zheng) (receipt : SettleReceipt zheng)
    (mintHeight : UInt64) :
    node.creditReceipt receipt mintHeight = { node with
      creditedReceipts := if node.creditedReceipts.contains receipt.receiptHash then
        node.creditedReceipts else node.creditedReceipts.insert receipt.receiptHash
      pendingRewards := node.pendingRewards ++
        (node.contribution receipt mintHeight).map Credit.reward } := by
  simp only [creditReceipt, contribution]
  split_ifs
  · rw [List.map_nil, List.append_nil]
  · rfl
  · rw [List.map_nil, List.append_nil]

/-- The fields that crediting reads and writes. -/
def ledger (node : LiveNode zheng) :
    Particle × Std.ExtTreeSet Particle × List PendingReward × UInt64 :=
  (node.neuron, node.creditedReceipts, node.pendingRewards, node.maturedReward)

theorem contribution_of_ledger_eq {node after : LiveNode zheng}
    (unchanged : after.ledger = node.ledger) : after.contribution = node.contribution := by
  simp only [ledger, Prod.mk.injEq] at unchanged
  funext receipt mintHeight
  rw [contribution, contribution, unchanged.1, unchanged.2.1]

theorem creditReceipt_ledger_congr {node after : LiveNode zheng}
    (unchanged : after.ledger = node.ledger) (receipt : SettleReceipt zheng) (mintHeight : UInt64) :
    (after.creditReceipt receipt mintHeight).ledger =
      (node.creditReceipt receipt mintHeight).ledger := by
  have same := contribution_of_ledger_eq unchanged
  simp only [ledger, Prod.mk.injEq] at unchanged
  obtain ⟨neuron, receipts, pending, matured⟩ := unchanged
  simp only [creditReceipt_eq, ledger, same, neuron, receipts, pending, matured]

end LiveNode

def maturedSum (matured : List PendingReward) : UInt64 :=
  matured.foldl (fun sum pending => satAdd sum pending.amount) 0

/-- The journal explains the ledger of a node: no receipt hash twice, every
credited hash recorded, every credit the node's own share, and each credit
either pending or matured. -/
structure Accounted {zheng : Zheng} (neuron : Particle) (node : LiveNode zheng)
    (journal : List (Credit zheng)) : Prop where
  owner : node.neuron = neuron
  distinct : (journal.map Credit.hash).Nodup
  recorded : ∀ credit ∈ journal, credit.hash ∈ node.creditedReceipts
  shares : ∀ credit ∈ journal, credit.amount = shareOf credit.receipt neuron ∧ credit.amount > 0
  balanced : ∃ matured, (journal.map Credit.reward).Perm (node.pendingRewards ++ matured) ∧
    node.maturedReward = maturedSum matured

namespace Accounted

variable {zheng : Zheng} {neuron : Particle} {node after : LiveNode zheng}
  {journal : List (Credit zheng)}

theorem new (hemera : Hemera) (zheng : Zheng) (mode : NodeMode) (neuron : Particle) :
    Accounted neuron (LiveNode.new hemera zheng mode neuron) [] where
  owner := rfl
  distinct := List.nodup_nil
  recorded := by simp
  shares := by simp
  balanced := ⟨[], .refl _, rfl⟩

theorem of_ledger_eq (accounted : Accounted neuron node journal)
    (unchanged : after.ledger = node.ledger) : Accounted neuron after journal := by
  simp only [LiveNode.ledger, Prod.mk.injEq] at unchanged
  obtain ⟨sameNeuron, sameReceipts, samePending, sameMatured⟩ := unchanged
  exact {
    owner := sameNeuron.trans accounted.owner
    distinct := accounted.distinct
    recorded := sameReceipts ▸ accounted.recorded
    shares := accounted.shares
    balanced := by
      rw [samePending, sameMatured]
      exact accounted.balanced }

theorem mature (accounted : Accounted neuron node journal) :
    Accounted neuron node.matureRewards journal where
  owner := accounted.owner
  distinct := accounted.distinct
  recorded := accounted.recorded
  shares := accounted.shares
  balanced := by
    obtain ⟨matured, entries, sum⟩ := accounted.balanced
    refine ⟨matured ++ node.pendingRewards.filter node.due, entries.trans ?_, ?_⟩
    · have parts := List.filter_append_perm node.due node.pendingRewards
      have moved : (node.pendingRewards.filter node.due ++
          (node.pendingRewards.filter (fun pending => !node.due pending) ++ matured)).Perm
          (node.pendingRewards.filter (fun pending => !node.due pending) ++ matured ++
            node.pendingRewards.filter node.due) := List.perm_append_comm
      rw [← List.append_assoc, List.append_assoc (node.pendingRewards.filter fun pending =>
        !node.due pending)] at moved
      exact (parts.symm.append_right matured).trans moved
    · rw [maturedSum, List.foldl_append]
      change _ = List.foldl _ (maturedSum matured) _
      rw [← sum]
      rfl

theorem credit (accounted : Accounted neuron node journal) (receipt : SettleReceipt zheng)
    (mintHeight : UInt64) :
    Accounted neuron (node.creditReceipt receipt mintHeight)
      (journal ++ node.contribution receipt mintHeight) := by
  rw [LiveNode.creditReceipt, LiveNode.contribution]
  by_cases seen : node.creditedReceipts.contains receipt.receiptHash = true
  · rw [if_pos seen, if_pos seen, List.append_nil]
    exact accounted
  · rw [if_neg seen, if_neg seen]
    have kept : ∀ credit ∈ journal,
        credit.hash ∈ node.creditedReceipts.insert receipt.receiptHash :=
      fun credit member => Std.ExtTreeSet.mem_insert.mpr (.inr (accounted.recorded credit member))
    dsimp only
    by_cases positive : shareOf receipt node.neuron > 0
    · rw [if_pos positive, if_pos positive]
      have fresh : receipt.receiptHash ∉ journal.map Credit.hash := by
        intro member
        obtain ⟨credit, inside, same⟩ := List.mem_map.mp member
        exact seen (Std.ExtTreeSet.mem_iff_contains.mp (same ▸ accounted.recorded credit inside))
      obtain ⟨matured, entries, sum⟩ := accounted.balanced
      exact {
        owner := accounted.owner
        distinct := by
          rw [List.map_append]
          exact List.nodup_append_comm.mp (List.nodup_cons.mpr ⟨fresh, accounted.distinct⟩)
        recorded := by
          intro credit member
          rcases List.mem_append.mp member with earlier | new
          · exact kept credit earlier
          · rw [List.mem_singleton.mp new]
            exact Std.ExtTreeSet.mem_insert_self
        shares := by
          intro credit member
          rcases List.mem_append.mp member with earlier | new
          · exact accounted.shares credit earlier
          · rw [List.mem_singleton.mp new]
            exact ⟨congrArg (shareOf receipt) accounted.owner, positive⟩
        balanced := by
          refine ⟨matured, ?_, sum⟩
          rw [List.map_append]
          refine (entries.append_right _).trans ?_
          rw [List.append_assoc, List.append_assoc]
          exact List.perm_append_comm.append_left node.pendingRewards }
    · rw [if_neg positive, if_neg positive, List.append_nil]
      exact {
        owner := accounted.owner
        distinct := accounted.distinct
        recorded := kept
        shares := accounted.shares
        balanced := accounted.balanced }

end Accounted

section Books

variable {zheng : Zheng} {node : LiveNode zheng}

/-- The ledger that a call leaves behind: that of `node`, or after a success
that of `node` with the due rewards matured. -/
def Booked (node : LiveNode zheng) (result : LiveNode zheng × Except LiveError α) : Prop :=
  result.1.ledger = node.ledger ∨
    (∃ value, result.2 = .ok value) ∧
      ∃ tipped : LiveNode zheng, tipped.ledger = node.ledger ∧ result.1 = tipped.matureRewards

theorem Booked.of_ledger_eq {before : LiveNode zheng} {result : LiveNode zheng × Except LiveError α}
    (same : node.ledger = before.ledger) (booked : Booked node result) : Booked before result := by
  rcases booked with kept | ⟨succeeded, tipped, unchanged, matured⟩
  · exact .inl (kept.trans same)
  · exact .inr ⟨succeeded, tipped, unchanged.trans same, matured⟩

theorem Booked.matured {tipped : LiveNode zheng} {value : α} (same : tipped.ledger = node.ledger) :
    Booked node (tipped.matureRewards, .ok value) := .inr ⟨⟨value, rfl⟩, tipped, same, rfl⟩

theorem bumpTip_booked (hemera : Hemera) (node : LiveNode zheng) :
    Booked node (node.bumpTip hemera) := by
  simp only [LiveNode.bumpTip]
  split
  · split
    · exact .inl rfl
    · split
      · exact .inl rfl
      · exact .matured rfl
  · exact .matured rfl

end Books

section Calls

variable {crates : Crates} {neuron : Particle} {node : LiveNode crates.zheng}
  {journal : List (Credit crates.zheng)}

/-- A property of the runner that no step of a node within an epoch ends. -/
structure Standing (crates : Crates) (holds : EpochRunner crates.zheng → Prop) : Prop where
  configure : ∀ {runner : EpochRunner crates.zheng} (outerT budget : UInt64), holds runner →
    holds { runner with outerT, budget }
  freeze : ∀ {runner after : EpochRunner crates.zheng},
    runner.freeze crates.hemera = .ok after → holds runner → holds after
  openBeacon : ∀ {runner after : EpochRunner crates.zheng} {signalVdfs : List VdfProof},
    runner.openBeacon crates.hemera signalVdfs = .ok after → holds runner → holds after
  settle : ∀ {runner after : EpochRunner crates.zheng} {base : List Link}
    {policy : TicketPolicy} {peerAccs : List ClusterAcc},
    runner.settleWithPeers crates base crates.tru.noContext crates.tru.defaultParams policy
      peerAccs = .ok after → holds runner → holds after

/-- The node with a runner of which the property holds. -/
def WithRunner (holds : EpochRunner crates.zheng → Prop) (node after : LiveNode crates.zheng) :
    Prop :=
  ∃ epoch : EpochRunner crates.zheng, after = { node with epoch } ∧ holds epoch

namespace Standing

variable {holds : EpochRunner crates.zheng → Prop}

theorem freezeProposed {frozen : LiveNode crates.zheng} (standing : Standing crates holds)
    (held : holds node.epoch) (closes : node.freezeProposed crates = .ok frozen) :
    WithRunner holds node frozen := by
  rw [LiveNode.freezeProposed] at closes
  split_ifs at closes
  · cases freezes : node.epoch.freeze crates.hemera with
    | error reason => simp [freezes] at closes
    | ok epoch =>
        simp only [freezes] at closes
        cases closes
        exact ⟨epoch, rfl, standing.freeze freezes held⟩
  · cases closes
    exact ⟨node.epoch, rfl, held⟩

theorem openFrozen {ready : LiveNode crates.zheng} (standing : Standing crates holds)
    (held : holds node.epoch) (opens : node.openFrozen crates = .ok ready) :
    WithRunner holds node ready := by
  rw [LiveNode.openFrozen] at opens
  split_ifs at opens
  · cases opened : node.epoch.openBeacon crates.hemera
      (node.signals.toList.map fun entry => entry.2.vdf) with
    | error reason => simp [opened] at opens
    | ok epoch =>
        simp only [opened] at opens
        cases opens
        exact ⟨epoch, rfl, standing.openBeacon opened held⟩
  · cases opens
    exact ⟨node.epoch, rfl, held⟩

theorem freezeAndBeacon (standing : Standing crates holds) (held : holds node.epoch) :
    WithRunner holds node (node.freezeAndBeacon crates).1 := by
  rw [LiveNode.freezeAndBeacon]
  split_ifs
  · exact ⟨node.epoch, rfl, held⟩
  · cases closes : node.freezeProposed crates with
    | error reason => exact ⟨node.epoch, rfl, held⟩
    | ok frozen =>
        obtain ⟨closed, rfl, still⟩ := standing.freezeProposed held closes
        cases opens : LiveNode.openFrozen crates { node with epoch := closed } with
        | error reason => exact ⟨closed, by simp only [opens], still⟩
        | ok ready =>
            obtain ⟨epoch, rfl, kept⟩ := standing.openFrozen still opens
            exact ⟨epoch, by simp only [opens], kept⟩

theorem settleOwn (standing : Standing crates holds) (held : holds node.epoch) :
    WithRunner holds node (node.settleOwn crates).1 := by
  have configured := standing.configure testOuterT node.budget held
  simp only [LiveNode.settleOwn]
  split_ifs
  · exact ⟨node.epoch, rfl, held⟩
  · exact ⟨_, rfl, configured⟩
  · split
    · exact ⟨_, rfl, configured⟩
    · rename_i frozen closes
      obtain ⟨closed, rfl, still⟩ := standing.freezeProposed configured closes
      split
      · exact ⟨closed, rfl, still⟩
      · rename_i ready opens
        obtain ⟨opened, rfl, kept⟩ := standing.openFrozen still opens
        split
        · exact ⟨opened, rfl, kept⟩
        · rename_i epoch settles
          have settled := standing.settle settles kept
          split
          · exact ⟨epoch, rfl, settled⟩
          · split_ifs
            · exact ⟨epoch, rfl, settled⟩
            · exact ⟨epoch, rfl, settled⟩

theorem and {also : EpochRunner crates.zheng → Prop} (standing : Standing crates holds)
    (other : Standing crates also) : Standing crates fun runner => holds runner ∧ also runner where
  configure outerT budget held :=
    ⟨standing.configure outerT budget held.1, other.configure outerT budget held.2⟩
  freeze frozen held := ⟨standing.freeze frozen held.1, other.freeze frozen held.2⟩
  openBeacon opened held := ⟨standing.openBeacon opened held.1, other.openBeacon opened held.2⟩
  settle settled held := ⟨standing.settle settled held.1, other.settle settled held.2⟩

end Standing

/-- The node with a runner that has the same claims. -/
def SameClaims (node after : LiveNode crates.zheng) : Prop :=
  ∃ epoch : EpochRunner crates.zheng, after = { node with epoch } ∧
    epoch.claims = node.epoch.claims

theorem SameClaims.ledger_eq {after : LiveNode crates.zheng} (same : SameClaims node after) :
    after.ledger = node.ledger := by
  obtain ⟨_, rfl, _⟩ := same
  rfl

theorem claims_standing (claims : List RewardClaim) :
    Standing crates fun runner => runner.claims = claims where
  configure _ _ same := same
  freeze frozen same := (EpochRunner.freeze_claims frozen).trans same
  openBeacon opened same := (EpochRunner.openBeacon_claims opened).trans same
  settle settled same := (EpochRunner.settleWithPeers_claims settled).trans same

theorem freezeAndBeacon_sameClaims (node : LiveNode crates.zheng) :
    SameClaims node (node.freezeAndBeacon crates).1 := (claims_standing _).freezeAndBeacon rfl

theorem settleOwn_sameClaims (node : LiveNode crates.zheng) :
    SameClaims node (node.settleOwn crates).1 := (claims_standing _).settleOwn rfl

theorem settleOwn_ledger (node : LiveNode crates.zheng) :
    (node.settleOwn crates).1.ledger = node.ledger := (settleOwn_sameClaims node).ledger_eq

def ownCredit (node : LiveNode crates.zheng) : List (Credit crates.zheng) :=
  match node.settleOwn crates with
  | (_, .error _) => []
  | (settled, .ok receipt) => settled.contribution receipt settled.tip.height

def certCredit (node : LiveNode crates.zheng) (cert : EpochCertificate crates.zheng)
    (claims : Option (List RewardClaim)) : List (Credit crates.zheng) :=
  if verifyEpochCert crates cert (node.acceptInputs crates claims) then
    match cert.settle with
    | some receipt => node.contribution receipt cert.tipHeight
    | none => []
  else []

/-- The public calls of a node, and the settings that a caller may write. -/
inductive Call (crates : Crates) where
  | ingestSignal (sig : LiveSignal)
  | link («from» «to» : Particle) (amount : Nat) (valence : Int8)
  | absorbPeerAcc (acc : ClusterAcc)
  | freezeAndBeacon
  | closeAndSettleEpoch
  | acceptEpochCert (cert : EpochCertificate crates.zheng) (claims : Option (List RewardClaim))
  | lightJoin (tip : Tip crates.zheng)
  | lightAdvance (height : UInt64) (root : Particle)
  | configure (rewardBase : List Link) (budget settleDepth : UInt64)

/-- The node after a call, whether it succeeded or not. -/
def perform (node : LiveNode crates.zheng) : Call crates → LiveNode crates.zheng
  | .ingestSignal sig => (node.ingestSignal crates sig).1
  | .link «from» «to» amount valence => (node.link crates «from» «to» amount valence).1
  | .absorbPeerAcc acc => node.absorbPeerAcc acc
  | .freezeAndBeacon => (node.freezeAndBeacon crates).1
  | .closeAndSettleEpoch => (node.closeAndSettleEpoch crates).1
  | .acceptEpochCert cert claims => (node.acceptEpochCert crates cert claims).1
  | .lightJoin tip => (node.lightJoin tip).1
  | .lightAdvance height root => (node.lightAdvance crates.hemera height root).1
  | .configure rewardBase budget settleDepth => { node with rewardBase, budget, settleDepth }

def creditsOf (node : LiveNode crates.zheng) : Call crates → List (Credit crates.zheng)
  | .closeAndSettleEpoch => ownCredit node
  | .acceptEpochCert cert claims => certCredit node cert claims
  | _ => []

/-- What a call returns, without the value of a successful one. -/
def answer (node : LiveNode crates.zheng) : Call crates → Except LiveError Unit
  | .ingestSignal sig => (node.ingestSignal crates sig).2
  | .link «from» «to» amount valence => (node.link crates «from» «to» amount valence).2.map fun _ => ()
  | .absorbPeerAcc _ => .ok ()
  | .freezeAndBeacon => (node.freezeAndBeacon crates).2.map fun _ => ()
  | .closeAndSettleEpoch => (node.closeAndSettleEpoch crates).2.map fun _ => ()
  | .acceptEpochCert cert claims => (node.acceptEpochCert crates cert claims).2
  | .lightJoin tip => (node.lightJoin tip).2
  | .lightAdvance height root => (node.lightAdvance crates.hemera height root).2
  | .configure _ _ _ => .ok ()

/-- The receipt that a call passes to `credit_receipt`. -/
def carried (node : LiveNode crates.zheng) : Call crates → Option (SettleReceipt crates.zheng)
  | .closeAndSettleEpoch =>
      match node.settleOwn crates with
      | (_, .ok receipt) => some receipt
      | (_, .error _) => none
  | .acceptEpochCert cert claims =>
      if verifyEpochCert crates cert (node.acceptInputs crates claims) then cert.settle else none
  | _ => none

def credited (node : LiveNode crates.zheng) (call : Call crates) (mintHeight : UInt64) :
    LiveNode crates.zheng :=
  match carried node call with
  | some receipt => node.creditReceipt receipt mintHeight
  | none => node

theorem ingestSignal_booked (node : LiveNode crates.zheng) (sig : LiveSignal) :
    Booked node (node.ingestSignal crates sig) := by
  rw [LiveNode.ingestSignal]
  split_ifs
  · exact .inl rfl
  · exact .inl rfl
  · cases LiveNode.proposeSignal crates node.epoch sig with
    | error reason => exact .inl rfl
    | ok epoch =>
        refine Booked.of_ledger_eq ?_ (bumpTip_booked crates.hemera _)
        rfl

theorem certifyOwn_booked (node : LiveNode crates.zheng) (receipt : SettleReceipt crates.zheng) :
    Booked node (node.certifyOwn crates receipt) := by
  rw [LiveNode.certifyOwn]
  cases node.epoch.beacon with
  | none => exact .inl rfl
  | some art =>
      dsimp only
      split_ifs
      · exact .inl rfl
      · apply Booked.matured
        split <;> rfl

theorem Booked.void {α : Type} {node : LiveNode crates.zheng}
    {result : LiveNode crates.zheng × Except LiveError α} (booked : Booked node result) :
    Booked node (result.1, result.2.map fun _ => ()) := by
  rcases booked with kept | ⟨⟨value, succeeded⟩, tipped⟩
  · exact .inl kept
  · exact .inr ⟨⟨(), by rw [succeeded]; rfl⟩, tipped⟩

theorem importTip_ledger (node : LiveNode crates.zheng) (cert : EpochCertificate crates.zheng) :
    (node.importTip cert).ledger = node.ledger := by
  rw [LiveNode.importTip]
  split_ifs
  · rfl
  · rfl

theorem closeAndSettleEpoch_booked (node : LiveNode crates.zheng) :
    ∃ mintHeight,
      creditsOf node .closeAndSettleEpoch =
        (carried node .closeAndSettleEpoch).toList.flatMap
          (fun receipt => node.contribution receipt mintHeight) ∧
      Booked (credited node .closeAndSettleEpoch mintHeight)
        (perform node .closeAndSettleEpoch, answer node .closeAndSettleEpoch) := by
  have kept := settleOwn_ledger node
  simp only [creditsOf, ownCredit, credited, carried, perform, answer, LiveNode.closeAndSettleEpoch]
  generalize node.settleOwn crates = outcome at kept
  obtain ⟨settled, result⟩ := outcome
  cases result with
  | error reason => exact ⟨0, rfl, .inl kept⟩
  | ok receipt =>
      refine ⟨settled.tip.height, ?_, (certifyOwn_booked _ receipt).void.of_ledger_eq ?_⟩
      · rw [← LiveNode.contribution_of_ledger_eq kept]
        exact (List.append_nil _).symm
      · exact LiveNode.creditReceipt_ledger_congr kept receipt settled.tip.height

theorem acceptEpochCert_booked (node : LiveNode crates.zheng) (cert : EpochCertificate crates.zheng)
    (claims : Option (List RewardClaim)) :
    creditsOf node (.acceptEpochCert cert claims) =
        (carried node (.acceptEpochCert cert claims)).toList.flatMap
          (fun receipt => node.contribution receipt cert.tipHeight) ∧
      Booked (credited node (.acceptEpochCert cert claims) cert.tipHeight)
        (perform node (.acceptEpochCert cert claims), answer node (.acceptEpochCert cert claims)) := by
  simp only [creditsOf, certCredit, credited, carried, perform, answer, LiveNode.acceptEpochCert]
  cases verifyEpochCert crates cert (node.acceptInputs crates claims) with
  | false => exact ⟨rfl, .inl rfl⟩
  | true =>
      have imported := importTip_ledger node cert
      cases cert.settle with
      | none => exact ⟨rfl, .matured imported⟩
      | some receipt =>
          refine ⟨(List.append_nil _).symm, .matured ?_⟩
          exact LiveNode.creditReceipt_ledger_congr imported receipt cert.tipHeight

/-- What a call does to the ledger: it credits the receipt it carries, and if it
succeeds due rewards may mature. -/
theorem perform_booked (node : LiveNode crates.zheng) (call : Call crates) :
    ∃ mintHeight,
      creditsOf node call =
        (carried node call).toList.flatMap (fun receipt => node.contribution receipt mintHeight) ∧
      Booked (credited node call mintHeight) (perform node call, answer node call) := by
  cases call with
  | ingestSignal sig => exact ⟨0, rfl, ingestSignal_booked node sig⟩
  | link «from» «to» amount valence =>
      refine ⟨0, rfl, ?_⟩
      rcases ingestSignal_booked node _ with kept | ⟨⟨value, succeeded⟩, tipped⟩
      · exact .inl kept
      · refine .inr ⟨⟨(), ?_⟩, tipped⟩
        simp only [answer, LiveNode.link, succeeded]
        rfl
  | absorbPeerAcc acc =>
      refine ⟨0, rfl, .inl ?_⟩
      simp only [perform, LiveNode.absorbPeerAcc]
      split_ifs <;> rfl
  | freezeAndBeacon => exact ⟨0, rfl, .inl (freezeAndBeacon_sameClaims node).ledger_eq⟩
  | closeAndSettleEpoch => exact closeAndSettleEpoch_booked node
  | acceptEpochCert cert claims => exact ⟨cert.tipHeight, acceptEpochCert_booked node cert claims⟩
  | lightJoin tip =>
      refine ⟨0, rfl, .inl ?_⟩
      simp only [perform, LiveNode.lightJoin]
      split_ifs <;> rfl
  | lightAdvance height root =>
      refine ⟨0, rfl, .inl ?_⟩
      simp only [perform, LiveNode.lightAdvance]
      split_ifs <;> rfl
  | configure rewardBase budget settleDepth => exact ⟨0, rfl, .inl rfl⟩

theorem perform_accounted (accounted : Accounted neuron node journal) (call : Call crates) :
    Accounted neuron (perform node call) (journal ++ creditsOf node call) := by
  obtain ⟨mintHeight, credits, booked⟩ := perform_booked node call
  have written : Accounted neuron (credited node call mintHeight) (journal ++ creditsOf node call) := by
    rw [credits, credited]
    cases carried node call with
    | none =>
        rw [Option.toList_none, List.flatMap_nil, List.append_nil]
        exact accounted
    | some receipt =>
        rw [Option.toList_some, List.flatMap_singleton]
        exact accounted.credit receipt mintHeight
  rcases booked with kept | ⟨_, tipped, unchanged, matured⟩
  · exact written.of_ledger_eq kept
  · have settled : perform node call = tipped.matureRewards := matured
    rw [settled]
    exact (written.of_ledger_eq unchanged).mature

end Calls

section Runs

variable (crates : Crates)

def advance (state : LiveNode crates.zheng × List (Credit crates.zheng)) (call : Call crates) :
    LiveNode crates.zheng × List (Credit crates.zheng) :=
  (perform state.1 call, state.2 ++ creditsOf state.1 call)

/-- A run of a new node: the node at its end and the credits made in it. -/
def run (mode : NodeMode) (neuron : Particle) (calls : List (Call crates)) :
    LiveNode crates.zheng × List (Credit crates.zheng) :=
  calls.foldl (advance crates) (LiveNode.new crates.hemera crates.zheng mode neuron, [])

theorem run_accounted (mode : NodeMode) (neuron : Particle) (calls : List (Call crates)) :
    Accounted neuron (run crates mode neuron calls).1 (run crates mode neuron calls).2 := by
  refine List.foldlRecOn calls (advance crates) (motive := fun state =>
    Accounted neuron state.1 state.2) ?_ ?_
  · exact Accounted.new crates.hemera crates.zheng mode neuron
  · exact fun state accounted call _ => perform_accounted accounted call

/-- In every run a receipt hash is credited at most once, with the share of the
node's neuron, and what is pending or matured is one entry for each credit. -/
theorem receipt_hashes_credited_once (mode : NodeMode) (neuron : Particle)
    (calls : List (Call crates)) :
    ((run crates mode neuron calls).2.map Credit.hash).Nodup ∧
    (∀ credit ∈ (run crates mode neuron calls).2,
      credit.amount = shareOf credit.receipt neuron ∧ credit.amount > 0) ∧
    ∃ matured,
      ((run crates mode neuron calls).2.map Credit.reward).Perm
        ((run crates mode neuron calls).1.pendingRewards ++ matured) ∧
      (run crates mode neuron calls).1.maturedReward = maturedSum matured := by
  have accounted := run_accounted crates mode neuron calls
  exact ⟨accounted.distinct, accounted.shares, accounted.balanced⟩

end Runs

/-- A node that accepts two certificates of epoch 1 is credited for both. -/
theorem epoch_credited_twice :
    verifyEpochCert sampleCrates (linkCert 1 1000 1000) none = true ∧
    verifyEpochCert sampleCrates (linkCert 1 999 999) none = true ∧
    (run sampleCrates .light (Particle.padded [1])
      [.acceptEpochCert (linkCert 1 1000 1000) none,
        .acceptEpochCert (linkCert 1 999 999) none]).2.map
      (fun credit => (credit.receipt.epoch, credit.amount)) = [(1, 1000), (1, 999)] ∧
    (run sampleCrates .light (Particle.padded [1])
      [.acceptEpochCert (linkCert 1 1000 1000) none,
        .acceptEpochCert (linkCert 1 999 999) none]).1.pendingRewards.map
      PendingReward.amount = [1000, 999] := by
  decide +kernel

end Foculus.Live

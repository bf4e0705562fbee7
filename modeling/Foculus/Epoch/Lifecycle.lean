import Foculus.Data.Action
import Foculus.Epoch.Certificate

namespace Foculus.Epoch

open Data Settlement

/-! # The life of an epoch runner (`src/epoch.rs`)

The methods once more, now with the assignments of the source in their order, so
that a call which fails half way would leave a half-updated runner behind. -/

def EpochPhase.rank : EpochPhase → Nat
  | .propose => 0
  | .frozen => 1
  | .beaconReady => 2
  | .settled => 3

namespace EpochRunner

/-- A method of the runner. -/
abbrev Method (zheng : Zheng) (α : Type) := Action (EpochRunner zheng) EpochError α

section Methods

variable {zheng : Zheng}

def proposing (claim : RewardClaim) : Method zheng Unit := do
  let runner ← Action.get
  if runner.phase ≠ .propose then Action.fail .wrongPhase
  else Action.modify fun runner => { runner with claims := runner.claims ++ [claim] }

def freezing (hemera : Hemera) : Method zheng Particle := do
  let runner ← Action.get
  if runner.phase ≠ .propose then Action.fail .wrongPhase
  else if runner.claims.isEmpty then Action.fail .emptyClaims
  else do
    let root := Epoch.claimsRoot hemera (runner.claims.map RewardClaim.id)
    Action.modify fun runner => { runner with claimsRoot := some root }
    Action.modify fun runner => { runner with phase := .frozen }
    return root

def openingBeacon (hemera : Hemera) (signalVdfs : List VdfProof) : Method zheng BeaconArtifact := do
  let runner ← Action.get
  if runner.phase ≠ .frozen then Action.fail .wrongPhase
  else match runner.claimsRoot with
    | none => Action.fail .notFrozen
    | some root => do
        let outputs := collectSignalOutputs signalVdfs
        let art := Epoch.openBeacon hemera runner.epoch runner.prevBeacon root outputs runner.outerT
        if !verifyBeacon hemera art then Action.fail .beaconInvalid
        else do
          Action.modify fun runner => { runner with beacon := some art }
          Action.modify fun runner => { runner with phase := .beaconReady }
          let runner ← Action.get
          Action.lift (Outcome.expect runner.beacon)

def openingQuietBeacon (hemera : Hemera) : Method zheng BeaconArtifact := openingBeacon hemera []

end Methods

section Settling

variable (crates : Crates) (base : List Link) (ctx : crates.tru.Context)
  (params : crates.tru.FocusingParams)

def settlingWithPeers (policy : TicketPolicy) (peerAccs : List ClusterAcc) :
    Method crates.zheng (SettleReceipt crates.zheng) := do
  let runner ← Action.get
  if runner.phase ≠ .beaconReady then Action.fail .wrongPhase
  else if runner.budget = 0 then Action.fail .budgetZero
  else match runner.beacon with
    | none => Action.fail .noBeacon
    | some art =>
        if !verifyBeacon crates.hemera art then Action.fail .beaconInvalid
        else do
          let contribs := contributionsWithRho crates.tru runner.claims
          let total := directedTotal crates.tru base runner.claims ctx params
          let tickets := grindSettlement crates.hemera crates.tru base contribs ctx params
            art.beacon art.claimsRoot policy.miner policy.startNonce policy.maxAttempts policy.want
            policy.settleTarget
          let leaves := selfFold crates.hemera contribs.length tickets :: peerAccs
          if leaves.all fun acc => acc.k == 0 then Action.fail .noTickets
          else do
            let receipt ← Action.lift (.ofExcept (settleLeaves crates runner base ctx params policy
              art contribs total tickets leaves))
            Action.modify fun runner => { runner with receipt := some receipt }
            Action.modify fun runner => { runner with phase := .settled }
            let runner ← Action.get
            Action.lift (Outcome.expect runner.receipt)

def settling (policy : TicketPolicy) : Method crates.zheng (SettleReceipt crates.zheng) :=
  settlingWithPeers crates base ctx params policy []

def runToSettle (signalVdfs : List VdfProof) (policy : TicketPolicy) :
    Method crates.zheng (SettleReceipt crates.zheng) := do
  let runner ← Action.get
  Action.when (runner.phase = .propose) (freezing crates.hemera).void
  let runner ← Action.get
  Action.when (runner.phase = .frozen) (openingBeacon crates.hemera signalVdfs).void
  settling crates base ctx params policy

end Settling

section Atomic

variable {zheng : Zheng}

theorem proposing_eq (claim : RewardClaim) :
    (proposing claim : Method zheng Unit) =
      Action.atomic (fun _ => .ok ()) (propose · claim) := by
  funext runner
  simp only [proposing, propose, Action.get_bind, Action.atomic]
  split_ifs with closed
  · rfl
  · rfl

theorem freezing_eq (hemera : Hemera) :
    (freezing hemera : Method zheng Particle) =
      Action.atomic (fun after => .ok (Epoch.claimsRoot hemera (after.claims.map RewardClaim.id)))
        (freeze hemera) := by
  funext runner
  simp only [freezing, freeze, Action.get_bind, Action.atomic]
  split_ifs with closed unclaimed
  · rfl
  · rfl
  · rfl

theorem openingBeacon_eq (hemera : Hemera) (signalVdfs : List VdfProof) :
    (openingBeacon hemera signalVdfs : Method zheng BeaconArtifact) =
      Action.atomic (fun after => Outcome.expect after.beacon) (openBeacon hemera · signalVdfs) := by
  funext runner
  obtain ⟨epoch, prevBeacon, phase, claims, claimsRoot, beacon, receipt, outerT, budget⟩ := runner
  simp only [openingBeacon, openBeacon, Action.get_bind, Action.atomic]
  split_ifs with early
  · rfl
  · cases claimsRoot with
    | none => rfl
    | some root =>
        dsimp only
        split_ifs with invalid
        · rfl
        · rfl

theorem settlingWithPeers_eq (crates : Crates) (base : List Link) (ctx : crates.tru.Context)
    (params : crates.tru.FocusingParams) (policy : TicketPolicy) (peerAccs : List ClusterAcc) :
    settlingWithPeers crates base ctx params policy peerAccs =
      Action.atomic (fun after => Outcome.expect after.receipt)
        (settleWithPeers crates · base ctx params policy peerAccs) := by
  funext runner
  obtain ⟨epoch, prevBeacon, phase, claims, claimsRoot, beacon, receipt, outerT, budget⟩ := runner
  simp only [settlingWithPeers, settleWithPeers, Action.get_bind, Action.atomic]
  split_ifs with early unfunded
  · rfl
  · rfl
  · cases beacon with
    | none => rfl
    | some art =>
        dsimp only
        split_ifs with invalid idle
        · rfl
        · rfl
        · generalize settleLeaves crates _ base ctx params policy art _ _ _ _ = settlement
          cases settlement with
          | error reason => rfl
          | ok receipt => rfl

end Atomic

/-- What holds of the fields of a runner between calls. -/
structure Lifecycle (crates : Crates) (runner : EpochRunner crates.zheng) : Prop where
  root_eq : runner.claimsRoot =
    if runner.phase = .propose then none
    else some (Epoch.claimsRoot crates.hemera (runner.claims.map RewardClaim.id))
  beacon_absent : runner.phase.rank < EpochPhase.beaconReady.rank → runner.beacon = none
  beacon_present : EpochPhase.beaconReady.rank ≤ runner.phase.rank →
    ∃ art, runner.beacon = some art ∧ verifyBeacon crates.hemera art = true ∧
      art.epoch = runner.epoch ∧ art.prev = runner.prevBeacon ∧
      runner.claimsRoot = some art.claimsRoot
  receipt_absent : runner.phase ≠ .settled → runner.receipt = none
  receipt_present : runner.phase = .settled →
    ∃ receipt, runner.receipt = some receipt ∧ receipt.epoch = runner.epoch ∧
      runner.beacon.map BeaconArtifact.beacon = some receipt.beacon ∧
      runner.claimsRoot = some receipt.claimsRoot ∧
      verifyReceipt crates.hemera crates.zheng receipt = true

/-- The phase does not go back, and the claims stay as they were frozen. -/
structure Advances {zheng : Zheng} (before after : EpochRunner zheng) : Prop where
  rank_le : before.phase.rank ≤ after.phase.rank
  claims_eq : before.phase ≠ .propose → after.claims = before.claims

theorem Advances.refl {zheng : Zheng} (runner : EpochRunner zheng) : Advances runner runner :=
  ⟨Nat.le_refl _, fun _ => rfl⟩

theorem Advances.trans {zheng : Zheng} {first second third : EpochRunner zheng}
    (earlier : Advances first second) (later : Advances second third) : Advances first third := by
  refine ⟨earlier.rank_le.trans later.rank_le, ?_⟩
  intro closed
  have stillClosed : second.phase ≠ .propose := by
    intro reopened
    have rank := earlier.rank_le
    rw [reopened] at rank
    cases phase : first.phase with
    | propose => exact closed phase
    | frozen => simp [phase, EpochPhase.rank] at rank
    | beaconReady => simp [phase, EpochPhase.rank] at rank
    | settled => simp [phase, EpochPhase.rank] at rank
  rw [later.claims_eq stillClosed, earlier.claims_eq closed]

section Steps

variable {crates : Crates} {runner after : EpochRunner crates.zheng}

theorem new_lifecycle (crates : Crates) (epoch : UInt64) (prevBeacon : Particle) :
    Lifecycle crates (new crates.zheng epoch prevBeacon) where
  root_eq := rfl
  beacon_absent _ := rfl
  beacon_present late := absurd late (by change ¬ 2 ≤ 0; decide)
  receipt_absent _ := rfl
  receipt_present settled := nomatch settled

theorem propose_lifecycle {claim : RewardClaim} (proposed : runner.propose claim = .ok after)
    (alive : Lifecycle crates runner) : Lifecycle crates after ∧ Advances runner after := by
  rw [propose] at proposed
  split_ifs at proposed with closed
  cases proposed
  have accepting : runner.phase = .propose := not_not.mp closed
  refine ⟨?_, Nat.le_refl _, fun late => absurd accepting late⟩
  exact {
    root_eq := by
      have root := alive.root_eq
      rw [if_pos accepting] at root
      simp only [root, accepting, if_true]
    beacon_absent := alive.beacon_absent
    beacon_present := alive.beacon_present
    receipt_absent := alive.receipt_absent
    receipt_present := alive.receipt_present }

theorem freeze_lifecycle (frozen : runner.freeze crates.hemera = .ok after)
    (alive : Lifecycle crates runner) : Lifecycle crates after ∧ Advances runner after := by
  obtain ⟨accepting, _, rfl⟩ := freeze_eq_ok_iff.mp frozen
  refine ⟨?_, by simp [accepting, EpochPhase.rank], fun late => absurd accepting late⟩
  exact {
    root_eq := rfl
    beacon_absent := fun _ => alive.beacon_absent (by rw [accepting]; decide)
    beacon_present := fun late => absurd late (by change ¬ 2 ≤ 1; decide)
    receipt_absent := fun _ => alive.receipt_absent (by rw [accepting]; decide)
    receipt_present := fun settled => nomatch settled }

theorem openBeacon_lifecycle {signalVdfs : List VdfProof}
    (opened : runner.openBeacon crates.hemera signalVdfs = .ok after)
    (alive : Lifecycle crates runner) : Lifecycle crates after ∧ Advances runner after := by
  obtain ⟨frozen, root, art, rooted, rfl, verified, rfl⟩ := openBeacon_eq_ok opened
  refine ⟨?_, by simp [frozen, EpochPhase.rank], fun _ => rfl⟩
  have rootIs := alive.root_eq
  rw [if_neg (by rw [frozen]; decide), rooted] at rootIs
  exact {
    root_eq := rooted.trans rootIs
    beacon_absent := fun early => absurd early (by change ¬ 2 < 2; decide)
    beacon_present := fun _ => ⟨_, rfl, verified, rfl, rfl, rooted⟩
    receipt_absent := fun _ => alive.receipt_absent (by rw [frozen]; decide)
    receipt_present := fun settled => nomatch settled }

variable {base : List Link} {ctx : crates.tru.Context} {params : crates.tru.FocusingParams}
  {policy : TicketPolicy}

theorem sealTickets_verifies (counts : Step.Counts crates.zheng) {contribs : List Contribution}
    {beacon cluster : Particle} {tickets : List SettlementTicket}
    {ticketSeal : Option (FoldSeal crates.zheng)}
    (sealed : sealTickets crates base contribs ctx params beacon cluster tickets =
      .ok ticketSeal) :
    checkOption (verifyFoldSeal crates.zheng) ticketSeal = true := by
  obtain ⟨_, rfl⟩ | ⟨made, rfl, proven⟩ := sealTickets_eq_ok sealed
  · rfl
  · exact proveSettlementBatch_verifies counts proven

theorem settleLeaves_verifies (counts : Step.Counts crates.zheng) {art : BeaconArtifact}
    {contribs : List Contribution} {total : Fx} {tickets : List SettlementTicket}
    {leaves : List ClusterAcc} {receipt : SettleReceipt crates.zheng}
    (genuine : verifyBeacon crates.hemera art = true)
    (settled : settleLeaves crates runner base ctx params policy art contribs total tickets leaves =
      .ok receipt) :
    receipt.epoch = runner.epoch ∧ receipt.beacon = art.beacon ∧
      receipt.claimsRoot = art.claimsRoot ∧
      verifyReceipt crates.hemera crates.zheng receipt = true := by
  obtain ⟨ticketSeal, root, foldSeal, shares, sealed, _, foldVerified, _, _, rfl⟩ :=
    settleLeaves_eq_ok_iff.mp settled
  refine ⟨rfl, rfl, rfl, ?_⟩
  have tickets := sealTickets_verifies counts sealed
  simp only [verifyReceipt, receiptOf, checkOption, genuine, foldVerified, beq_self_eq_true,
    Bool.and_self, Bool.true_and, Bool.and_true]
  exact tickets

theorem settleWithPeers_lifecycle (counts : Step.Counts crates.zheng)
    {peerAccs : List ClusterAcc}
    (settled : runner.settleWithPeers crates base ctx params policy peerAccs = .ok after)
    (alive : Lifecycle crates runner) : Lifecycle crates after ∧ Advances runner after := by
  obtain ⟨ready, _, art, receipt, opened, genuine, _, leaves, rfl⟩ :=
    settleWithPeers_eq_ok_iff.mp settled
  obtain ⟨epoch, beacon, root, verified⟩ := settleLeaves_verifies counts genuine leaves
  obtain ⟨art', opened', _, artEpoch, artPrev, artRoot⟩ :=
    alive.beacon_present (by rw [ready])
  cases Option.some.inj (opened.symm.trans opened')
  refine ⟨?_, by simp [ready, EpochPhase.rank], fun _ => rfl⟩
  have rootIs := alive.root_eq
  rw [if_neg (by rw [ready]; decide)] at rootIs
  exact {
    root_eq := rootIs
    beacon_absent := fun early => absurd early (by change ¬ 3 < 2; decide)
    beacon_present := fun _ => ⟨art, opened, genuine, artEpoch, artPrev, artRoot⟩
    receipt_absent := fun unsettled => absurd rfl unsettled
    receipt_present := fun _ => by
      refine ⟨receipt, rfl, epoch, ?_, ?_, verified⟩
      · simp only [opened, Option.map_some, beacon]
      · simp only [artRoot, root] }

end Steps

section Runs

variable (crates : Crates)

/-- The public methods of a runner, and the two fields that a caller may write. -/
inductive Call where
  | propose (claim : RewardClaim)
  | freeze
  | openBeacon (signalVdfs : List VdfProof)
  | openQuietBeacon
  | settle (base : List Link) (ctx : crates.tru.Context) (params : crates.tru.FocusingParams)
      (policy : TicketPolicy)
  | settleWithPeers (base : List Link) (ctx : crates.tru.Context)
      (params : crates.tru.FocusingParams) (policy : TicketPolicy) (peerAccs : List ClusterAcc)
  | runToSettle (base : List Link) (ctx : crates.tru.Context)
      (params : crates.tru.FocusingParams) (signalVdfs : List VdfProof) (policy : TicketPolicy)
  | setOuterT (outerT : UInt64)
  | setBudget (budget : UInt64)

variable {crates}

/-- Every call but `run_to_settle`, which is a sequence of the others. -/
def Call.single : Call crates → Bool
  | .runToSettle .. => false
  | _ => true

def Call.perform : Call crates → Method crates.zheng Unit
  | .propose claim => proposing claim
  | .freeze => (freezing crates.hemera).void
  | .openBeacon signalVdfs => (openingBeacon crates.hemera signalVdfs).void
  | .openQuietBeacon => (openingQuietBeacon crates.hemera).void
  | .settle base ctx params policy => (settling crates base ctx params policy).void
  | .settleWithPeers base ctx params policy peerAccs =>
      (settlingWithPeers crates base ctx params policy peerAccs).void
  | .runToSettle base ctx params signalVdfs policy =>
      (EpochRunner.runToSettle crates base ctx params signalVdfs policy).void
  | .setOuterT outerT => Action.modify fun runner => { runner with outerT }
  | .setBudget budget => Action.modify fun runner => { runner with budget }

/-- The runner after a sequence of calls, whether they succeeded or not. -/
def run (crates : Crates) (epoch : UInt64) (prevBeacon : Particle) (calls : List (Call crates)) :
    EpochRunner crates.zheng :=
  calls.foldl (fun runner call => (call.perform runner).2) (new crates.zheng epoch prevBeacon)

/-- The invariant of a call that started at `start`. -/
def Alive (crates : Crates) (start runner : EpochRunner crates.zheng) : Prop :=
  Lifecycle crates runner ∧ Advances start runner

theorem atomic_alive {α : Type} {start : EpochRunner crates.zheng}
    {value : EpochRunner crates.zheng → Outcome EpochError α}
    {step : EpochRunner crates.zheng → Except EpochError (EpochRunner crates.zheng)}
    (stepped : ∀ {runner after}, step runner = .ok after → Lifecycle crates runner →
      Lifecycle crates after ∧ Advances runner after) :
    (Action.atomic value step).Keeps (Alive crates start) := by
  apply Action.atomic_keeps
  intro runner after ok held
  obtain ⟨alive, advanced⟩ := held
  obtain ⟨still, further⟩ := stepped ok alive
  exact ⟨still, advanced.trans further⟩

theorem freezing_alive (start : EpochRunner crates.zheng) :
    (freezing crates.hemera).Keeps (Alive crates start) := by
  rw [freezing_eq]
  exact atomic_alive freeze_lifecycle

theorem openingBeacon_alive (start : EpochRunner crates.zheng) (signalVdfs : List VdfProof) :
    (openingBeacon crates.hemera signalVdfs).Keeps (Alive crates start) := by
  rw [openingBeacon_eq]
  exact atomic_alive openBeacon_lifecycle

theorem settlingWithPeers_alive (counts : Step.Counts crates.zheng)
    (start : EpochRunner crates.zheng) (base : List Link) (ctx : crates.tru.Context)
    (params : crates.tru.FocusingParams) (policy : TicketPolicy) (peerAccs : List ClusterAcc) :
    (settlingWithPeers crates base ctx params policy peerAccs).Keeps (Alive crates start) := by
  rw [settlingWithPeers_eq]
  exact atomic_alive (settleWithPeers_lifecycle counts)

theorem runToSettle_alive (counts : Step.Counts crates.zheng) (start : EpochRunner crates.zheng)
    (base : List Link) (ctx : crates.tru.Context) (params : crates.tru.FocusingParams)
    (signalVdfs : List VdfProof) (policy : TicketPolicy) :
    (runToSettle crates base ctx params signalVdfs policy).Keeps (Alive crates start) := by
  refine Action.keeps_bind (fun _ alive => alive) fun runner => ?_
  refine Action.keeps_bind (Action.keeps_when (Action.keeps_void (freezing_alive start)))
    fun _ => ?_
  refine Action.keeps_bind (fun _ alive => alive) fun runner => ?_
  refine Action.keeps_bind (Action.keeps_when (Action.keeps_void
    (openingBeacon_alive start signalVdfs))) fun _ => ?_
  exact settlingWithPeers_alive counts start base ctx params policy []

/-- The invariant does not read the fields that a caller may write. -/
theorem config_alive {start runner : EpochRunner crates.zheng} (held : Alive crates start runner)
    (outerT budget : UInt64) : Alive crates start { runner with outerT, budget } := by
  obtain ⟨alive, advanced⟩ := held
  exact ⟨⟨alive.root_eq, alive.beacon_absent, alive.beacon_present, alive.receipt_absent,
    alive.receipt_present⟩, advanced.rank_le, advanced.claims_eq⟩

theorem perform_alive (counts : Step.Counts crates.zheng) (start : EpochRunner crates.zheng)
    (call : Call crates) : call.perform.Keeps (Alive crates start) := by
  cases call with
  | propose claim =>
      rw [Call.perform, proposing_eq]
      exact atomic_alive propose_lifecycle
  | freeze => exact Action.keeps_void (freezing_alive start)
  | openBeacon signalVdfs => exact Action.keeps_void (openingBeacon_alive start signalVdfs)
  | openQuietBeacon => exact Action.keeps_void (openingBeacon_alive start [])
  | settle base ctx params policy =>
      exact Action.keeps_void (settlingWithPeers_alive counts start base ctx params policy [])
  | settleWithPeers base ctx params policy peerAccs =>
      exact Action.keeps_void (settlingWithPeers_alive counts start base ctx params policy peerAccs)
  | runToSettle base ctx params signalVdfs policy =>
      exact Action.keeps_void (runToSettle_alive counts start base ctx params signalVdfs policy)
  | setOuterT outerT => exact fun runner held => config_alive held outerT runner.budget
  | setBudget budget => exact fun runner held => config_alive held runner.outerT budget

theorem run_lifecycle (counts : Step.Counts crates.zheng) (epoch : UInt64) (prevBeacon : Particle)
    (calls : List (Call crates)) : Lifecycle crates (run crates epoch prevBeacon calls) := by
  have kept : ∀ start, Lifecycle crates start → Lifecycle crates
      (calls.foldl (fun runner call => (call.perform runner).2) start) := by
    induction calls with
    | nil => exact fun _ alive => alive
    | cons call rest ih =>
        intro start alive
        exact ih _ (perform_alive counts start call start ⟨alive, Advances.refl start⟩).1
  exact kept _ (new_lifecycle crates epoch prevBeacon)

theorem perform_err (call : Call crates) (single : call.single = true)
    (runner : EpochRunner crates.zheng) {error : EpochError}
    (failed : (call.perform runner).1 = .err error) : (call.perform runner).2 = runner := by
  cases call with
  | propose claim =>
      rw [Call.perform, proposing_eq] at failed ⊢
      exact Action.atomic_err (fun _ => by simp) failed
  | freeze =>
      rw [Call.perform, freezing_eq] at failed ⊢
      exact Action.atomic_err (fun _ => by simp) (Action.void_err failed)
  | openBeacon signalVdfs =>
      rw [Call.perform, openingBeacon_eq] at failed ⊢
      exact Action.atomic_err (fun _ => Outcome.expect_ne_err) (Action.void_err failed)
  | openQuietBeacon =>
      rw [Call.perform, openingQuietBeacon, openingBeacon_eq] at failed ⊢
      exact Action.atomic_err (fun _ => Outcome.expect_ne_err) (Action.void_err failed)
  | settle base ctx params policy =>
      rw [Call.perform, settling, settlingWithPeers_eq] at failed ⊢
      exact Action.atomic_err (fun _ => Outcome.expect_ne_err) (Action.void_err failed)
  | settleWithPeers base ctx params policy peerAccs =>
      rw [Call.perform, settlingWithPeers_eq] at failed ⊢
      exact Action.atomic_err (fun _ => Outcome.expect_ne_err) (Action.void_err failed)
  | runToSettle base ctx params signalVdfs policy => exact absurd single Bool.false_ne_true
  | setOuterT outerT => cases failed
  | setBudget budget => cases failed

/-- In every run the fields of the runner fit its phase; the next call never
moves the phase back or changes frozen claims, and unless it is
`run_to_settle`, an error leaves the runner as it was. -/
theorem runner_lifecycle (crates : Crates) (counts : Step.Counts crates.zheng) (epoch : UInt64)
    (prevBeacon : Particle) (calls : List (Call crates)) :
    Lifecycle crates (run crates epoch prevBeacon calls) ∧
    ∀ call : Call crates,
      Advances (run crates epoch prevBeacon calls)
        (run crates epoch prevBeacon (calls ++ [call])) ∧
      (call.single = true →
        ∀ error, (call.perform (run crates epoch prevBeacon calls)).1 = .err error →
          run crates epoch prevBeacon (calls ++ [call]) = run crates epoch prevBeacon calls) := by
  have alive := run_lifecycle counts epoch prevBeacon calls
  refine ⟨alive, ?_⟩
  intro call
  have next : run crates epoch prevBeacon (calls ++ [call]) =
      (call.perform (run crates epoch prevBeacon calls)).2 := by
    rw [run, List.foldl_append]
    rfl
  rw [next]
  refine ⟨(perform_alive counts _ call _ ⟨alive, Advances.refl _⟩).2, ?_⟩
  intro single error failed
  exact perform_err call single _ failed

/-- A runner that proposes a claim, freezes it, opens its quiet beacon, settles and is
then frozen once more. -/
theorem runner_lifecycle_settled :
    let calls : List (Call sampleCrates) :=
      [.propose (linkClaim 1), .freeze, .openQuietBeacon,
        .settle [] () () { TicketPolicy.default with want := 1 }]
    (run sampleCrates 1 genesisPrev calls).phase = .settled ∧
      Lifecycle sampleCrates (run sampleCrates 1 genesisPrev calls) ∧
      run sampleCrates 1 genesisPrev (calls ++ [.freeze]) = run sampleCrates 1 genesisPrev calls := by
  intro calls
  have settled : (run sampleCrates 1 genesisPrev calls).phase = .settled := by decide +kernel
  obtain ⟨alive, next⟩ := runner_lifecycle sampleCrates Step.counting_counts 1 genesisPrev calls
  refine ⟨settled, alive, (next .freeze).2 rfl .wrongPhase ?_⟩
  change ((freezing sampleCrates.hemera).void (run sampleCrates 1 genesisPrev calls)).1 = _
  rw [freezing, Action.void_bind, Action.get_bind, if_pos]
  · rfl
  · rw [settled]
    decide

end Runs

end EpochRunner

end Foculus.Epoch

import Foculus.Live.Credits

namespace Foculus.Live

open Data Settlement Epoch

/-! Which signals become reward claims.

A signal is proposed when it enters the log, if the window is open then, and at
no other time.  The claim stays with the epoch until the next one begins. -/

section Intake

variable {crates : Crates}

def linkSignal (node : LiveNode crates.zheng) («from» «to» : Particle) (amount : Nat)
    (valence : Int8) : LiveSignal where
  id := node.linkId
  neuron := node.neuron
  links := [{ crates.tru.stake «from» «to» amount with neuron := node.neuron, valence }]
  valence := valence
  vdf := Vdf.evaluate (Vdf.challengeFromHash node.linkId) 16

/-- The signal that a call hands to `ingest_signal`. -/
def offered (node : LiveNode crates.zheng) : Call crates → Option LiveSignal
  | .ingestSignal sig => some sig
  | .link «from» «to» amount valence => some (linkSignal node «from» «to» amount valence)
  | _ => none

/-- The call puts the signal into the log. -/
structure TakesIn (node : LiveNode crates.zheng) (call : Call crates) (sig : LiveSignal) : Prop where
  offered : offered node call = some sig
  keeping : node.mode ≠ .light
  fresh : sig.id ∉ node.signals

/-- The runner after a signal has come in. -/
def withClaim (epoch : EpochRunner crates.zheng) (sig : LiveSignal) : EpochRunner crates.zheng :=
  if epoch.phase = .propose then
    { epoch with claims := epoch.claims ++
      [claimFromLinks crates.tru sig.id sig.neuron sig.links sig.valence] }
  else epoch

theorem proposeSignal_eq (epoch : EpochRunner crates.zheng) (sig : LiveSignal) :
    LiveNode.proposeSignal crates epoch sig = .ok (withClaim epoch sig) := by
  rw [LiveNode.proposeSignal, withClaim]
  split_ifs with accepting
  · exact if_neg (not_not.mpr accepting)
  · rfl

theorem mem_withClaim {epoch : EpochRunner crates.zheng} {sig : LiveSignal} {claim : RewardClaim} :
    claim ∈ (withClaim epoch sig).claims ↔ claim ∈ epoch.claims ∨ epoch.phase = .propose ∧
      claim = claimFromLinks crates.tru sig.id sig.neuron sig.links sig.valence := by
  rw [withClaim]
  split_ifs with accepting
  · simp [accepting]
  · simp [accepting]

theorem bumpTip_intake {zheng : Zheng} (hemera : Hemera) (node : LiveNode zheng) :
    (node.bumpTip hemera).1.signals = node.signals ∧ (node.bumpTip hemera).1.epoch = node.epoch := by
  simp only [LiveNode.bumpTip]
  split
  · split
    · exact ⟨rfl, rfl⟩
    · split <;> exact ⟨rfl, rfl⟩
  · exact ⟨rfl, rfl⟩

/-- What `ingest_signal` does to the log and to the runner. -/
theorem ingestSignal_intake (node : LiveNode crates.zheng) (sig : LiveSignal) :
    (node.mode = .light ∨ sig.id ∈ node.signals) ∧ (node.ingestSignal crates sig).1 = node ∨
      node.mode ≠ .light ∧ sig.id ∉ node.signals ∧
        (node.ingestSignal crates sig).1.signals = node.signals.insert sig.id sig ∧
        (node.ingestSignal crates sig).1.epoch = withClaim node.epoch sig := by
  rw [LiveNode.ingestSignal, proposeSignal_eq]
  split_ifs with light known
  · exact .inl ⟨.inl light, rfl⟩
  · exact .inl ⟨.inr (Std.ExtTreeMap.mem_iff_contains.mpr known), rfl⟩
  · refine .inr ⟨light, fun member => known (Std.ExtTreeMap.mem_iff_contains.mp member), ?_⟩
    exact bumpTip_intake crates.hemera _

/-- The log is as before, and so are the claims unless the next epoch has begun. -/
def Quiet (node after : LiveNode crates.zheng) : Prop :=
  after.signals = node.signals ∧ (after.epoch.claims = node.epoch.claims ∨ after.epoch.claims = [])

theorem SameClaims.quiet {node after : LiveNode crates.zheng} (same : SameClaims node after) :
    Quiet node after := by
  obtain ⟨epoch, rfl, claims⟩ := same
  exact ⟨rfl, .inl claims⟩

theorem certifyOwn_quiet (node : LiveNode crates.zheng) (receipt : SettleReceipt crates.zheng) :
    Quiet node (node.certifyOwn crates receipt).1 := by
  rw [LiveNode.certifyOwn]
  cases node.epoch.beacon with
  | none => exact ⟨rfl, .inl rfl⟩
  | some art =>
      dsimp only
      split_ifs
      · exact ⟨rfl, .inl rfl⟩
      · cases follows : node.epoch.nextEpoch with
        | error reason => exact ⟨rfl, .inl rfl⟩
        | ok next =>
            refine ⟨rfl, .inr ?_⟩
            rw [EpochRunner.nextEpoch] at follows
            split at follows
            · cases follows
            · split_ifs at follows
              cases follows
              rfl

theorem closeAndSettleEpoch_quiet (node : LiveNode crates.zheng) :
    Quiet node (node.closeAndSettleEpoch crates).1 := by
  have same := settleOwn_sameClaims node
  rw [LiveNode.closeAndSettleEpoch]
  generalize node.settleOwn crates = outcome at same
  obtain ⟨settled, result⟩ := outcome
  cases result with
  | error reason => exact same.quiet
  | ok receipt =>
      obtain ⟨epoch, rfl, claims⟩ := same
      have certified := certifyOwn_quiet (LiveNode.creditReceipt { node with epoch } receipt
        node.tip.height) receipt
      rw [LiveNode.creditReceipt_eq] at certified
      dsimp only
      rw [LiveNode.creditReceipt_eq]
      exact ⟨certified.1, certified.2.imp_left fun still => still.trans claims⟩

theorem acceptEpochCert_quiet (node : LiveNode crates.zheng) (cert : EpochCertificate crates.zheng)
    (claims : Option (List RewardClaim)) : Quiet node (node.acceptEpochCert crates cert claims).1 := by
  have imported : Quiet node (node.importTip cert) := by
    rw [LiveNode.importTip]
    split_ifs <;> exact ⟨rfl, .inl rfl⟩
  rw [LiveNode.acceptEpochCert]
  split_ifs
  · exact ⟨rfl, .inl rfl⟩
  · cases cert.settle with
    | none => exact imported
    | some receipt =>
        dsimp only
        rw [LiveNode.creditReceipt_eq]
        exact imported

theorem perform_quiet {node : LiveNode crates.zheng} {call : Call crates}
    (silent : offered node call = none) : Quiet node (perform node call) := by
  cases call with
  | ingestSignal sig => cases silent
  | link «from» «to» amount valence => cases silent
  | absorbPeerAcc acc =>
      rw [perform, LiveNode.absorbPeerAcc]
      split_ifs <;> exact ⟨rfl, .inl rfl⟩
  | freezeAndBeacon => exact (freezeAndBeacon_sameClaims node).quiet
  | closeAndSettleEpoch => exact closeAndSettleEpoch_quiet node
  | acceptEpochCert cert claims => exact acceptEpochCert_quiet node cert claims
  | lightJoin tip =>
      rw [perform, LiveNode.lightJoin]
      split_ifs <;> exact ⟨rfl, .inl rfl⟩
  | lightAdvance height root =>
      rw [perform, LiveNode.lightAdvance]
      split_ifs <;> exact ⟨rfl, .inl rfl⟩
  | configure rewardBase budget settleDepth => exact ⟨rfl, .inl rfl⟩

/-- A call that hands over a signal is `ingest_signal` of it. -/
theorem perform_offered {node : LiveNode crates.zheng} {call : Call crates} {sig : LiveSignal}
    (hands : offered node call = some sig) : perform node call = (node.ingestSignal crates sig).1 := by
  cases call with
  | ingestSignal other => rw [perform, Option.some.inj hands]
  | link «from» «to» amount valence =>
      rw [← Option.some.inj hands]
      rfl
  | _ => simp [offered] at hands

/-- What a call does to the log: it takes in one signal, or nothing. -/
theorem mem_perform_signals (node : LiveNode crates.zheng) (call : Call crates) (id : Particle) :
    id ∈ (perform node call).signals ↔
      id ∈ node.signals ∨ ∃ sig, TakesIn node call sig ∧ sig.id = id := by
  cases hands : offered node call with
  | none =>
      rw [(perform_quiet hands).1]
      refine ⟨.inl, fun either => either.elim (fun member => member) fun taken => ?_⟩
      obtain ⟨sig, takes, _⟩ := taken
      cases hands.symm.trans takes.offered
  | some sig =>
      have only {other : LiveSignal} (takes : TakesIn node call other) : sig = other :=
        Option.some.inj (hands.symm.trans takes.offered)
      rw [perform_offered hands]
      rcases ingestSignal_intake node sig with ⟨idle, same⟩ | ⟨keeping, fresh, signals, _⟩
      · rw [same]
        refine ⟨.inl, fun either => either.elim (fun member => member) fun taken => ?_⟩
        obtain ⟨_, takes, _⟩ := taken
        cases only takes
        exact absurd idle (not_or.mpr ⟨takes.keeping, takes.fresh⟩)
      · rw [signals, Std.ExtTreeMap.mem_insert, Std.compare_eq_iff_eq]
        constructor
        · intro either
          exact either.elim (fun here => .inr ⟨sig, ⟨hands, keeping, fresh⟩, here⟩) .inl
        · intro either
          refine either.elim .inr fun taken => ?_
          obtain ⟨_, takes, here⟩ := taken
          cases only takes
          exact .inl here

/-- A new claim is that of a signal taken in while the window was open. -/
theorem mem_perform_claims {node : LiveNode crates.zheng} {call : Call crates} {claim : RewardClaim}
    (member : claim ∈ (perform node call).epoch.claims) :
    claim ∈ node.epoch.claims ∨
      ∃ sig, TakesIn node call sig ∧ node.epoch.phase = .propose ∧ sig.id = claim.id := by
  cases hands : offered node call with
  | none =>
      rcases (perform_quiet hands).2 with same | next
      · rw [same] at member
        exact .inl member
      · rw [next] at member
        cases member
  | some sig =>
      rw [perform_offered hands] at member
      rcases ingestSignal_intake node sig with ⟨_, same⟩ | ⟨keeping, fresh, _, epoch⟩
      · rw [same] at member
        exact .inl member
      · rw [epoch, mem_withClaim] at member
        rcases member with earlier | ⟨accepting, rfl⟩
        · exact .inl earlier
        · exact .inr ⟨sig, ⟨hands, keeping, fresh⟩, accepting, rfl⟩

theorem TakesIn.claimed {node : LiveNode crates.zheng} {call : Call crates} {sig : LiveSignal}
    (takes : TakesIn node call sig) (accepting : node.epoch.phase = .propose) :
    ∃ claim ∈ (perform node call).epoch.claims, claim.id = sig.id := by
  rw [perform_offered takes.offered]
  rcases ingestSignal_intake node sig with ⟨idle, _⟩ | ⟨_, _, _, epoch⟩
  · exact absurd idle (not_or.mpr ⟨takes.keeping, takes.fresh⟩)
  · refine ⟨claimFromLinks crates.tru sig.id sig.neuron sig.links sig.valence, ?_, rfl⟩
    rw [epoch]
    exact mem_withClaim.mpr (.inr ⟨accepting, rfl⟩)

end Intake

section Runs

variable (crates : Crates) (mode : NodeMode) (neuron : Particle)

def nodeAfter (calls : List (Call crates)) : LiveNode crates.zheng := (run crates mode neuron calls).1

/-- The signal entered the log in the course of the calls, in this phase. -/
def Arrives (calls : List (Call crates)) (id : Particle) (phase : EpochPhase) : Prop :=
  ∃ earlier call sig, earlier ++ [call] <+: calls ∧
    TakesIn (nodeAfter crates mode neuron earlier) call sig ∧ sig.id = id ∧
    (nodeAfter crates mode neuron earlier).epoch.phase = phase

/-- The signal is a claim of the epoch, or was one earlier in the run. -/
def Claimed (calls : List (Call crates)) (id : Particle) : Prop :=
  ∃ earlier, earlier <+: calls ∧
    ∃ claim ∈ (nodeAfter crates mode neuron earlier).epoch.claims, claim.id = id

variable {crates} {mode} {neuron}

theorem nodeAfter_append (calls : List (Call crates)) (call : Call crates) :
    nodeAfter crates mode neuron (calls ++ [call]) =
      perform (nodeAfter crates mode neuron calls) call := by
  rw [nodeAfter, run, List.foldl_append]
  rfl

theorem Arrives.mono {calls more : List (Call crates)} {id : Particle} {phase : EpochPhase}
    (arrives : Arrives crates mode neuron calls id phase) (within : calls <+: more) :
    Arrives crates mode neuron more id phase := by
  obtain ⟨earlier, call, sig, before, rest⟩ := arrives
  exact ⟨earlier, call, sig, before.trans within, rest⟩

theorem logged_iff (calls : List (Call crates)) (id : Particle) :
    id ∈ (nodeAfter crates mode neuron calls).signals ↔
      ∃ phase, Arrives crates mode neuron calls id phase := by
  constructor
  · intro logged
    induction calls using List.reverseRecOn with
    | nil => exact absurd logged Std.ExtTreeMap.not_mem_empty
    | append_singleton calls call ih =>
        rw [nodeAfter_append, mem_perform_signals] at logged
        rcases logged with earlier | ⟨sig, takes, here⟩
        · obtain ⟨phase, arrives⟩ := ih earlier
          exact ⟨phase, arrives.mono (List.prefix_append calls [call])⟩
        · exact ⟨_, calls, call, sig, List.prefix_refl _, takes, here, rfl⟩
  · intro arrived
    obtain ⟨_, earlier, call, sig, within, takes, rfl, _⟩ := arrived
    obtain ⟨more, rfl⟩ := within
    induction more using List.reverseRecOn with
    | nil =>
        rw [List.append_nil, nodeAfter_append]
        exact (mem_perform_signals _ call sig.id).mpr (.inr ⟨sig, takes, rfl⟩)
    | append_singleton more next ih =>
        rw [← List.append_assoc, nodeAfter_append]
        exact (mem_perform_signals _ next sig.id).mpr (.inl ih)

/-- A signal that is in the log does not enter it again. -/
theorem Arrives.not_later {calls earlier : List (Call crates)} {call next : Call crates}
    {first second : LiveSignal} (before : earlier ++ [call] <+: calls)
    (takes : TakesIn (nodeAfter crates mode neuron earlier) call first)
    (again : TakesIn (nodeAfter crates mode neuron calls) next second) : second.id ≠ first.id := by
  intro same
  apply again.fresh
  rw [same]
  exact (logged_iff calls first.id).mpr ⟨_, earlier, call, first, before, takes, rfl, rfl⟩

theorem Arrives.once {calls : List (Call crates)} {id : Particle} {phase other : EpochPhase}
    (left : Arrives crates mode neuron calls id phase)
    (right : Arrives crates mode neuron calls id other) : phase = other := by
  obtain ⟨first, firstCall, firstSignal, firstWithin, firstTakes, rfl, rfl⟩ := left
  obtain ⟨second, secondCall, secondSignal, secondWithin, secondTakes, same, rfl⟩ := right
  have firstPrefix : first <+: calls := (List.prefix_append first [firstCall]).trans firstWithin
  have secondPrefix : second <+: calls := (List.prefix_append second [secondCall]).trans secondWithin
  rcases Nat.lt_trichotomy first.length second.length with shorter | equal | longer
  · have before := List.prefix_of_prefix_length_le firstWithin secondPrefix (by simpa using shorter)
    exact absurd same (Arrives.not_later before firstTakes secondTakes)
  · rw [(List.prefix_of_prefix_length_le firstPrefix secondPrefix equal.le).eq_of_length equal]
  · have before := List.prefix_of_prefix_length_le secondWithin firstPrefix (by simpa using longer)
    exact absurd same.symm (Arrives.not_later before secondTakes firstTakes)

theorem claims_arrived (calls : List (Call crates)) :
    ∀ claim ∈ (nodeAfter crates mode neuron calls).epoch.claims,
      Arrives crates mode neuron calls claim.id .propose := by
  induction calls using List.reverseRecOn with
  | nil => exact fun claim member => absurd member List.not_mem_nil
  | append_singleton calls call ih =>
      intro claim member
      rw [nodeAfter_append] at member
      rcases mem_perform_claims member with earlier | ⟨sig, takes, accepting, here⟩
      · exact (ih claim earlier).mono (List.prefix_append calls [call])
      · exact ⟨calls, call, sig, List.prefix_refl _, takes, here, accepting⟩

theorem claimed_iff (calls : List (Call crates)) (id : Particle) :
    Claimed crates mode neuron calls id ↔ Arrives crates mode neuron calls id .propose := by
  constructor
  · intro claimed
    obtain ⟨earlier, within, claim, member, rfl⟩ := claimed
    exact (claims_arrived earlier claim member).mono within
  · intro arrives
    obtain ⟨earlier, call, sig, within, takes, rfl, accepting⟩ := arrives
    obtain ⟨claim, member, same⟩ := takes.claimed accepting
    refine ⟨earlier ++ [call], within, claim, ?_, same⟩
    rwa [nodeAfter_append]

/-- Every signal in the log of a node entered it once, and it is a claim of the
epoch or of an earlier one exactly if the propose window was open then. -/
theorem signal_claimed_iff_in_window (crates : Crates) (mode : NodeMode) (neuron : Particle)
    (calls : List (Call crates)) (id : Particle) :
    (id ∈ (nodeAfter crates mode neuron calls).signals ↔
      ∃ phase, Arrives crates mode neuron calls id phase) ∧
    (∀ phase other, Arrives crates mode neuron calls id phase →
      Arrives crates mode neuron calls id other → phase = other) ∧
    (Claimed crates mode neuron calls id ↔ Arrives crates mode neuron calls id .propose) :=
  ⟨logged_iff calls id, fun _ _ left right => left.once right, claimed_iff calls id⟩

end Runs

section Samples

def namedSignal (name : UInt8) : LiveSignal where
  id := Vector.replicate 32 name
  neuron := Particle.padded [7]
  links := [Tru.unit.stake (Particle.padded [8]) (Particle.padded [9]) 100]
  valence := 1
  vdf := Vdf.evaluate (Vdf.challengeFromHash (Vector.replicate 32 name)) 16

/-- The second signal comes in between the freeze and the settlement. -/
def lateArrival : List (Call sampleCrates) :=
  [.ingestSignal (namedSignal 1), .freezeAndBeacon, .ingestSignal (namedSignal 2),
    .closeAndSettleEpoch]

theorem late_signal_unclaimed :
    (nodeAfter sampleCrates .full (Particle.padded [7]) lateArrival).epoch.phase = .propose ∧
      (namedSignal 2).id ∈
        (nodeAfter sampleCrates .full (Particle.padded [7]) lateArrival).signals ∧
      ¬ Claimed sampleCrates .full (Particle.padded [7]) lateArrival (namedSignal 2).id := by
  have arrives : Arrives sampleCrates .full (Particle.padded [7]) lateArrival (namedSignal 2).id
      .beaconReady :=
    ⟨[.ingestSignal (namedSignal 1), .freezeAndBeacon], .ingestSignal (namedSignal 2),
      namedSignal 2, ⟨[.closeAndSettleEpoch], rfl⟩,
      ⟨rfl, by decide +kernel, by decide +kernel⟩, rfl, by decide +kernel⟩
  refine ⟨by decide +kernel, (logged_iff lateArrival _).mpr ⟨_, arrives⟩, fun claimed => ?_⟩
  cases arrives.once ((claimed_iff lateArrival _).mp claimed)

end Samples

end Foculus.Live

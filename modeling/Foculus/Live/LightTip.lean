import Foculus.Data.RunPrefixes
import Foculus.Live.Credits

namespace Foculus.Live

open Data Settlement Epoch

/-! How a light node follows its tip.

`light_advance` folds the next height into the tip and refuses a lower one.  An
accepted certificate may replace the tip by one that counts as applied locally,
which is not followed any further, and at any height if the certificate's own
tip was decided by folding. -/

namespace Tip

variable {zheng : Zheng}

theorem advanceFold_trust (hemera : Hemera) (tip : Tip zheng) (height : UInt64) (root : Particle) :
    (tip.advanceFold hemera height root).1.trust = tip.trust := by
  simp only [advanceFold]
  split_ifs
  · rfl
  · rfl
  · split <;> rfl

theorem advanceFold_height (hemera : Hemera) (tip : Tip zheng) (height : UInt64) (root : Particle) :
    tip.height ≤ (tip.advanceFold hemera height root).1.height := by
  simp only [advanceFold]
  split_ifs with _ lower
  · exact UInt64.le_refl tip.height
  · exact UInt64.le_refl tip.height
  · split
    · exact UInt64.le_refl tip.height
    · exact UInt64.not_lt.mp lower

theorem advanceFold_ok (folds : ∀ acc witness transcript, zheng.fold acc witness transcript ≠ none)
    (hemera : Hemera) {tip : Tip zheng} {height : UInt64} (decided : tip.trust = .foldDecided)
    (above : tip.height ≤ height) (root : Particle) :
    (tip.advanceFold hemera height root).2 = .ok () := by
  rw [advanceFold, if_neg (not_not.mpr decided), if_neg (UInt64.not_lt.mpr above)]
  dsimp only
  split
  next fails => exact absurd fails (folds _ _ _)
  next => rfl

end Tip

namespace LiveNode

variable {crates : Crates}

/-- The certificate is accepted and its tip imported. -/
def Imports (node : LiveNode crates.zheng) (cert : EpochCertificate crates.zheng)
    (claims : Option (List RewardClaim)) : Prop :=
  verifyEpochCert crates cert (node.acceptInputs crates claims) = true ∧
    (cert.tipTrust = .foldDecided ∨ cert.tipHeight ≥ node.tip.height)

theorem acceptEpochCert_mode (node : LiveNode crates.zheng) (cert : EpochCertificate crates.zheng)
    (claims : Option (List RewardClaim)) :
    (node.acceptEpochCert crates cert claims).1.mode = node.mode := by
  have imported : (node.importTip cert).mode = node.mode := by
    rw [importTip]
    split_ifs <;> rfl
  rw [acceptEpochCert]
  split_ifs
  · rfl
  · cases cert.settle with
    | none => exact imported
    | some receipt => exact (congrArg mode (creditReceipt_eq _ receipt cert.tipHeight)).trans imported

theorem acceptEpochCert_imports {node : LiveNode crates.zheng} (light : node.mode = .light)
    {cert : EpochCertificate crates.zheng} {claims : Option (List RewardClaim)}
    (imports : node.Imports cert claims) :
    (node.acceptEpochCert crates cert claims).1.tip =
      Tip.fromLocal ⟨cert.tipRoot, none, cert.tipHeight⟩ := by
  have imported : (node.importTip cert).tip = Tip.fromLocal ⟨cert.tipRoot, none, cert.tipHeight⟩ := by
    rw [importTip, if_pos ⟨light, imports.2⟩]
  rw [acceptEpochCert, imports.1, if_neg (by decide)]
  cases cert.settle with
  | none => exact imported
  | some receipt => exact (congrArg LiveNode.tip (creditReceipt_eq _ receipt cert.tipHeight)).trans imported

theorem acceptEpochCert_keeps {node : LiveNode crates.zheng}
    {cert : EpochCertificate crates.zheng} {claims : Option (List RewardClaim)}
    (kept : ¬ node.Imports cert claims) : (node.acceptEpochCert crates cert claims).1.tip = node.tip := by
  rw [acceptEpochCert]
  split_ifs with refused
  · rfl
  · have imported : (node.importTip cert).tip = node.tip := by
      rw [importTip, if_neg fun imports => kept ⟨by simpa using refused, imports.2⟩]
    cases cert.settle with
    | none => exact imported
    | some receipt => exact (congrArg LiveNode.tip (creditReceipt_eq _ receipt cert.tipHeight)).trans imported

end LiveNode

section Following

variable {crates : Crates}

inductive TipCall (crates : Crates) where
  | lightAdvance (height : UInt64) (root : Particle)
  | acceptEpochCert (cert : EpochCertificate crates.zheng) (claims : Option (List RewardClaim))

def followTip (node : LiveNode crates.zheng) : TipCall crates → LiveNode crates.zheng
  | .lightAdvance height root => (node.lightAdvance crates.hemera height root).1
  | .acceptEpochCert cert claims => (node.acceptEpochCert crates cert claims).1

def followTips (node : LiveNode crates.zheng) (calls : List (TipCall crates)) :
    LiveNode crates.zheng := calls.foldl followTip node

def ReplacesTip (node : LiveNode crates.zheng) : TipCall crates → Prop
  | .lightAdvance _ _ => False
  | .acceptEpochCert cert claims => node.Imports cert claims

/-- An accepted certificate whose tip was decided by folding, at a lower height. -/
def LowersTip (node : LiveNode crates.zheng) : TipCall crates → Prop
  | .lightAdvance _ _ => False
  | .acceptEpochCert cert claims =>
      verifyEpochCert crates cert (node.acceptInputs crates claims) = true ∧
        cert.tipTrust = .foldDecided ∧ cert.tipHeight < node.tip.height

/-- The tip can be advanced to every height from its own on. -/
def Follows (node : LiveNode crates.zheng) : Prop :=
  node.tip.trust = .foldDecided ∧ ∀ height root, node.tip.height ≤ height →
    (node.lightAdvance crates.hemera height root).2 = .ok ()

theorem lightAdvance_fst {node : LiveNode crates.zheng} (light : node.mode = .light)
    (height : UInt64) (root : Particle) :
    (node.lightAdvance crates.hemera height root).1 =
      { node with tip := (node.tip.advanceFold crates.hemera height root).1 } := by
  rw [LiveNode.lightAdvance, if_neg (not_not.mpr light)]

theorem followTip_mode {node : LiveNode crates.zheng} (light : node.mode = .light)
    (call : TipCall crates) : (followTip node call).mode = .light := by
  cases call with
  | lightAdvance height root =>
      rw [followTip, lightAdvance_fst light]
      exact light
  | acceptEpochCert cert claims => exact (node.acceptEpochCert_mode cert claims).trans light

theorem followTip_height_iff {node : LiveNode crates.zheng} (light : node.mode = .light)
    (call : TipCall crates) :
    node.tip.height ≤ (followTip node call).tip.height ↔ ¬ LowersTip node call := by
  cases call with
  | lightAdvance height root =>
      rw [followTip, lightAdvance_fst light]
      exact iff_of_true (node.tip.advanceFold_height crates.hemera height root) not_false
  | acceptEpochCert cert claims =>
      by_cases imports : node.Imports cert claims
      · rw [followTip, LiveNode.acceptEpochCert_imports light imports]
        constructor
        · intro above lowers
          exact UInt64.not_lt.mpr above lowers.2.2
        · intro raises
          rcases imports.2 with decided | above
          · exact UInt64.not_lt.mp fun lower => raises ⟨imports.1, decided, lower⟩
          · exact above
      · rw [followTip, LiveNode.acceptEpochCert_keeps imports]
        exact iff_of_true (UInt64.le_refl _) fun lowers => imports ⟨lowers.1, .inl lowers.2.1⟩

theorem followTip_trust {node : LiveNode crates.zheng} (light : node.mode = .light)
    (call : TipCall crates) :
    (followTip node call).tip.trust = .foldDecided ↔
      node.tip.trust = .foldDecided ∧ ¬ ReplacesTip node call := by
  cases call with
  | lightAdvance height root =>
      rw [followTip, lightAdvance_fst light]
      dsimp only
      rw [Tip.advanceFold_trust, ReplacesTip, not_false_iff, and_true]
  | acceptEpochCert cert claims =>
      by_cases imports : node.Imports cert claims
      · rw [followTip, LiveNode.acceptEpochCert_imports light imports]
        exact iff_of_false (by simp [Tip.fromLocal]) fun kept => kept.2 imports
      · rw [followTip, LiveNode.acceptEpochCert_keeps imports]
        exact ⟨fun decided => ⟨decided, imports⟩, And.left⟩

theorem follows_iff (folds : ∀ acc witness transcript, crates.zheng.fold acc witness transcript ≠ none)
    {node : LiveNode crates.zheng} (light : node.mode = .light) :
    Follows node ↔ node.tip.trust = .foldDecided := by
  refine ⟨And.left, fun decided => ⟨decided, fun height root above => ?_⟩⟩
  rw [LiveNode.lightAdvance, if_neg (not_not.mpr light)]
  dsimp only
  rw [Tip.advanceFold_ok folds crates.hemera decided above root]
  rfl

end Following

section Runs

variable {crates : Crates}

theorem followTips_append (node : LiveNode crates.zheng) (earlier : List (TipCall crates))
    (call : TipCall crates) :
    followTips node (earlier ++ [call]) = followTip (followTips node earlier) call := by
  rw [followTips, List.foldl_append]
  rfl

theorem followTips_mode {node : LiveNode crates.zheng} (light : node.mode = .light)
    (calls : List (TipCall crates)) : (followTips node calls).mode = .light := by
  induction calls using List.reverseRecOn with
  | nil => exact light
  | append_singleton calls call ih =>
      rw [followTips_append]
      exact followTip_mode ih call

/-- The tip never gets lower exactly if no call lowers it. -/
theorem heights_rise_iff {node : LiveNode crates.zheng} (light : node.mode = .light)
    (calls : List (TipCall crates)) :
    (∀ first second, first <+: second → second <+: calls →
        (followTips node first).tip.height ≤ (followTips node second).tip.height) ↔
      ∀ earlier call, earlier ++ [call] <+: calls → ¬ LowersTip (followTips node earlier) call := by
  constructor
  · intro rises earlier call within
    have step := rises earlier (earlier ++ [call]) (List.prefix_append earlier [call]) within
    rw [followTips_append] at step
    exact (followTip_height_iff (followTips_mode light earlier) call).mp step
  · intro raises first second before within
    obtain ⟨more, rfl⟩ := before
    induction more using List.reverseRecOn with
    | nil => rw [List.append_nil]; exact UInt64.le_refl _
    | append_singleton more call ih =>
        rw [← List.append_assoc] at within ⊢
        rw [followTips_append]
        have step := (followTip_height_iff (followTips_mode light (first ++ more)) call).mpr
          (raises (first ++ more) call within)
        exact UInt64.le_trans (ih ((List.prefix_append _ [call]).trans within)) step

theorem followTips_trust {node : LiveNode crates.zheng} (light : node.mode = .light)
    (joined : node.tip.trust = .foldDecided) (calls : List (TipCall crates)) :
    (∀ earlier, earlier <+: calls → (followTips node earlier).tip.trust = .foldDecided) ↔
      ∀ earlier call, earlier ++ [call] <+: calls → ¬ ReplacesTip (followTips node earlier) call := by
  refine throughout_iff (fun node : LiveNode crates.zheng => node.tip.trust = .foldDecided)
    (fun node call => ¬ ReplacesTip node call) joined ?_
  intro earlier call _ decided
  have step := followTip_trust (followTips_mode light earlier) call
  exact step.trans (and_iff_right decided)

/-- Along the calls the height of the tip never gets lower, and the node can
always fold its tip further. -/
structure Followed (node : LiveNode crates.zheng) (calls : List (TipCall crates)) : Prop where
  rises : ∀ first second, first <+: second → second <+: calls →
    (followTips node first).tip.height ≤ (followTips node second).tip.height
  follows : ∀ earlier, earlier <+: calls → Follows (followTips node earlier)

/-- A light node that has joined a tip decided by folding goes on following it
exactly as long as it imports no tip from a certificate. -/
theorem light_tip_followed_iff (crates : Crates)
    (folds : ∀ acc witness transcript, crates.zheng.fold acc witness transcript ≠ none)
    (node : LiveNode crates.zheng) (light : node.mode = .light)
    (joined : node.tip.trust = .foldDecided) (calls : List (TipCall crates)) :
    Followed node calls ↔
      ∀ earlier call, earlier ++ [call] <+: calls → ¬ ReplacesTip (followTips node earlier) call := by
  have decided := followTips_trust light joined calls
  constructor
  · intro followed
    exact decided.mp fun earlier within => (followed.follows earlier within).1
  · intro kept
    refine ⟨(heights_rise_iff light calls).mpr fun earlier call within lowers => ?_, ?_⟩
    · refine kept earlier call within ?_
      cases call with
      | lightAdvance height root => exact lowers
      | acceptEpochCert cert claims => exact ⟨lowers.1, .inl lowers.2.1⟩
    · intro earlier within
      exact (follows_iff folds (followTips_mode light earlier)).mpr (decided.mpr kept earlier within)

end Runs

section Samples

def foldedTip (height : UInt64) : Tip Step.counting :=
  Tip.joinCheckpoint ⟨Particle.zero, some (1 : Nat), height⟩

def joinedNode : LiveNode sampleCrates.zheng :=
  ((LiveNode.new .truncating Step.counting .light Particle.zero).lightJoin (foldedTip 5)).1

def tipCert (tip : Tip Step.counting) : EpochCertificate sampleCrates.zheng :=
  issueEpochCert .truncating 1 tip (linkArtifact 1) (linkArtifact 1).claimsRoot none none none

/-- After an advance, a certificate over an older tip that was applied locally. -/
def advanceThenOld : List (TipCall sampleCrates) :=
  [.lightAdvance 7 Particle.zero, .acceptEpochCert (tipCert (.fromLocal ⟨Particle.zero, none, 6⟩)) none]

theorem light_tip_followed_iff_sample :
    Followed joinedNode advanceThenOld ↔ ∀ earlier call, earlier ++ [call] <+: advanceThenOld →
      ¬ ReplacesTip (followTips joinedNode earlier) call :=
  light_tip_followed_iff sampleCrates (fun _ _ _ => Option.some_ne_none _) joinedNode rfl
    (by decide +kernel) advanceThenOld

def acceptOld : TipCall sampleCrates := .acceptEpochCert (tipCert (foldedTip 3)) none

/-- A peer's certificate over a tip decided by folding at height 3 takes a node
from height 5 back to 3, and the node cannot be advanced from there. -/
theorem old_cert_not_followed :
    joinedNode.mode = .light ∧ joinedNode.tip.trust = .foldDecided ∧
      (joinedNode.acceptEpochCert sampleCrates (tipCert (foldedTip 3)) none).2 = .ok () ∧
      (followTip joinedNode acceptOld).tip.height < joinedNode.tip.height ∧
      ((followTip joinedNode acceptOld).lightAdvance .truncating 5 Particle.zero).2 =
        .error .tipAdvanceFailed ∧
      ¬ Followed joinedNode [acceptOld] := by
  refine ⟨by decide +kernel, by decide +kernel, by decide +kernel, by decide +kernel,
    by decide +kernel, fun followed => ?_⟩
  have rises := followed.rises [] [acceptOld] List.nil_prefix (List.prefix_refl _)
  exact absurd rises (by decide +kernel)

end Samples

end Foculus.Live

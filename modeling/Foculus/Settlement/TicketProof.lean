import Foculus.Data.Outcome
import Foculus.Settlement.Tickets
import Foculus.Step

namespace Foculus.Settlement

open Data

/-! # Seals over tickets and fold steps (`src/ticket_proof.rs`) -/

def program : Particle := Particle.padded (strBytes "foculus-ticket-fold-v0")

inductive ProofError where
  | foldFailed
  | decideFailed
  | verifyFailed
  | empty
deriving DecidableEq, Repr

def ticketStatement (hemera : Hemera) (beacon cluster : Particle) (k : UInt64) : Statement where
  programHash := program
  inputHash := Particle.padded (u64Bytes k)
  outputHash := hemera.hash (beacon.toList ++ cluster.toList)
  focusBound := 0
  bbgRoot := Particle.zero

structure FoldSeal (zheng : Zheng) where
  acc : zheng.Accumulator
  proof : zheng.Proof
  statement : Statement
  steps : UInt64

structure TicketProver (zheng : Zheng) where
  acc : zheng.Accumulator
  transcript : zheng.Transcript
  steps : UInt64

def verifySeal (zheng : Zheng) (acc : zheng.Accumulator) (proof : zheng.Proof)
    (statement : Statement) : Bool :=
  Step.verifyGroup zheng acc proof statement

def verifyFoldSeal (zheng : Zheng) (sealed : FoldSeal zheng) : Bool :=
  verifySeal zheng sealed.acc sealed.proof sealed.statement &&
    zheng.stepCount sealed.acc == sealed.steps && sealed.steps > 0

namespace TicketProver

variable {zheng : Zheng}

def new (zheng : Zheng) : TicketProver zheng where
  acc := zheng.blank
  transcript := zheng.newTranscript
  steps := 0

def foldMaterial (hemera : Hemera) (prover : TicketProver zheng) (material : List UInt8) :
    Except ProofError (TicketProver zheng) :=
  let witness := Step.addStep hemera zheng material
  let transcript := if prover.steps = 0 then zheng.newTranscript else prover.transcript
  match zheng.fold prover.acc witness transcript with
  | none => .error .foldFailed
  | some (acc, transcript) => .ok { acc, transcript, steps := satAdd prover.steps 1 }

def foldSettlement (hemera : Hemera) (beacon cluster : Particle) (ticket : SettlementTicket)
    (prover : TicketProver zheng) : Except ProofError (TicketProver zheng) :=
  prover.foldMaterial hemera (beacon.toList ++ cluster.toList ++ u64Bytes ticket.nonce ++
    ticket.miner.toList ++ ticket.commitment.toList)

def foldStepMaterial (hemera : Hemera) (beacon cluster : Particle) (level : Nat)
    (pid : Particle) (left right result : ClusterAcc) (prover : TicketProver zheng) :
    Except ProofError (TicketProver zheng) :=
  prover.foldMaterial hemera (beacon.toList ++ cluster.toList ++ strBytes "fold" ++
    leBytes 4 level ++ pid.toList ++ left.commitment.toList ++ right.commitment.toList ++
    result.commitment.toList)

def «seal» (hemera : Hemera) (prover : TicketProver zheng) (beacon cluster : Particle)
    (sampleCount : UInt64) : Except ProofError (FoldSeal zheng) :=
  if prover.steps = 0 then .error .empty
  else
    let statement := ticketStatement hemera beacon cluster sampleCount
    match zheng.decide prover.acc statement with
    | none => .error .decideFailed
    | some proof =>
        if !verifySeal zheng prover.acc proof statement then .error .verifyFailed
        else .ok { acc := prover.acc, proof, statement, steps := prover.steps }

end TicketProver

def proveSettlementBatch (hemera : Hemera) (zheng : Zheng) (beacon cluster : Particle)
    (tickets : List SettlementTicket) : Except ProofError (FoldSeal zheng) :=
  if tickets.isEmpty then .error .empty
  else do
    let prover ← tickets.foldlM (fun prover ticket =>
      prover.foldSettlement hemera beacon cluster ticket) (TicketProver.new zheng)
    prover.seal hemera beacon cluster (lenU64 tickets.length)

/-- One merge of `prove_fold_tree`: the prover absorbs it, the node is the fold. -/
def proveMerge (hemera : Hemera) (zheng : Zheng) (beacon cluster : Particle) (level : Nat)
    (left right : ClusterAcc) : StateT (TicketProver zheng) (Except ProofError) ClusterAcc :=
  fun prover => do
    let result := foldAcc hemera left right
    let pid := pairId hemera left right
    let prover ← prover.foldStepMaterial hemera beacon cluster (levelU32 level) pid left right result
    return (result, prover)

def proveFoldTree (hemera : Hemera) (zheng : Zheng) (beacon cluster : Particle)
    (leaves : List ClusterAcc) : Except ProofError (ClusterAcc × FoldSeal zheng) :=
  match leaves with
  | [] => .error .empty
  | [root] => do
      let empty := ClusterAcc.empty root.sumM.length
      let pid := pairId hemera root empty
      let prover ← (TicketProver.new zheng).foldStepMaterial hemera beacon cluster 0 pid root empty
        root
      let sealed ← prover.seal hemera beacon cluster root.k
      return (root, sealed)
  | leaves => do
      let (level, prover) ← (FoldTree.levelsM (proveMerge hemera zheng beacon cluster)
        leaves.length 0 leaves).run (TicketProver.new zheng)
      let root := level.headD ClusterAcc.default
      let sealed ← prover.seal hemera beacon cluster root.k
      return (root, sealed)

section Counting

variable {zheng : Zheng} {hemera : Hemera} {beacon cluster : Particle}

/-- The prover counts its steps as zheng does. -/
def TicketProver.Counted (prover : TicketProver zheng) : Prop :=
  zheng.stepCount prover.acc = prover.steps

theorem TicketProver.foldMaterial_counted (counts : Step.Counts zheng)
    {prover after : TicketProver zheng} {material : List UInt8} (counted : prover.Counted)
    (folded : prover.foldMaterial hemera material = .ok after) : after.Counted := by
  simp only [foldMaterial] at folded
  split at folded
  · cases folded
  · next acc next folds =>
      cases folded
      change zheng.stepCount acc = satAdd prover.steps 1
      rw [counts.fold_eq folds, counted]

theorem TicketProver.seal_verifies {prover : TicketProver zheng} {sampleCount : UInt64}
    {sealed : FoldSeal zheng} (counted : prover.Counted)
    (closed : prover.seal hemera beacon cluster sampleCount = .ok sealed) :
    verifyFoldSeal zheng sealed = true := by
  simp only [TicketProver.seal] at closed
  split_ifs at closed with idle
  split at closed
  · cases closed
  · split_ifs at closed with unverified
    cases closed
    have positive : prover.steps > 0 := UInt64.pos_iff_ne_zero.mpr idle
    simp only [verifyFoldSeal, Bool.and_eq_true, beq_iff_eq, decide_eq_true_eq]
    exact ⟨⟨by simpa using unverified, counted⟩, positive⟩

theorem foldlM_foldSettlement_counted (counts : Step.Counts zheng)
    {tickets : List SettlementTicket} {prover after : TicketProver zheng}
    (counted : prover.Counted)
    (folded : tickets.foldlM (fun prover ticket =>
      prover.foldSettlement hemera beacon cluster ticket) prover = .ok after) : after.Counted := by
  induction tickets generalizing prover with
  | nil =>
      cases folded
      exact counted
  | cons ticket rest ih =>
      rw [List.foldlM_cons] at folded
      obtain ⟨next, first, later⟩ := bind_eq_ok_iff.mp folded
      exact ih (TicketProver.foldMaterial_counted counts counted first) later

/-- A seal over tickets verifies when it is made. -/
theorem proveSettlementBatch_verifies (counts : Step.Counts zheng)
    {tickets : List SettlementTicket} {sealed : FoldSeal zheng}
    (proven : proveSettlementBatch hemera zheng beacon cluster tickets = .ok sealed) :
    verifyFoldSeal zheng sealed = true := by
  rw [proveSettlementBatch] at proven
  split_ifs at proven
  obtain ⟨prover, folded, closed⟩ := bind_eq_ok_iff.mp proven
  have counted : (TicketProver.new zheng).Counted := counts.blank_eq
  exact TicketProver.seal_verifies (foldlM_foldSettlement_counted counts counted folded) closed

end Counting

section Binding

variable {zheng : Zheng} {hemera : Hemera} {beacon cluster : Particle}

theorem padded_inj {left right : List UInt8} (lengths : left.length = right.length)
    (short : left.length ≤ 32) (same : Particle.padded left = Particle.padded right) :
    left = right := by
  apply List.ext_getElem lengths
  intro i leftBound rightBound
  have lane : i < 32 := by omega
  have entry : (Particle.padded left)[i] = (Particle.padded right)[i] := by rw [same]
  simpa only [Particle.padded, Vector.getElem_ofFn, List.getD_eq_getElem _ _ leftBound,
    List.getD_eq_getElem _ _ rightBound] using entry

/-- A statement names its sample count. -/
theorem ticketStatement_count {left right : UInt64}
    (same : ticketStatement hemera beacon cluster left =
      ticketStatement hemera beacon cluster right) : left = right := by
  have inputs := congrArg Statement.inputHash same
  exact u64Bytes_inj (padded_inj (by simp) (by simp) inputs)

theorem TicketProver.seal_statement {prover : TicketProver zheng} {sampleCount : UInt64}
    {sealed : FoldSeal zheng} (closed : prover.seal hemera beacon cluster sampleCount = .ok sealed) :
    sealed.statement = ticketStatement hemera beacon cluster sampleCount := by
  simp only [TicketProver.seal] at closed
  split_ifs at closed
  split at closed
  · cases closed
  · split_ifs at closed
    cases closed
    rfl

theorem proveSettlementBatch_statement {tickets : List SettlementTicket} {sealed : FoldSeal zheng}
    (proven : proveSettlementBatch hemera zheng beacon cluster tickets = .ok sealed) :
    sealed.statement = ticketStatement hemera beacon cluster (lenU64 tickets.length) := by
  rw [proveSettlementBatch] at proven
  split_ifs at proven
  obtain ⟨prover, _, closed⟩ := bind_eq_ok_iff.mp proven
  exact TicketProver.seal_statement closed

theorem proveFoldTree_statement {leaves : List ClusterAcc} {root : ClusterAcc}
    {sealed : FoldSeal zheng}
    (proven : proveFoldTree hemera zheng beacon cluster leaves = .ok (root, sealed)) :
    sealed.statement = ticketStatement hemera beacon cluster root.k := by
  match leaves with
  | [] => cases proven
  | [leaf] =>
      simp only [proveFoldTree, bind_eq_ok_iff] at proven
      obtain ⟨prover, _, closing, closed, result⟩ := proven
      cases result
      exact TicketProver.seal_statement closed
  | first :: second :: rest =>
      simp only [proveFoldTree, bind_eq_ok_iff] at proven
      obtain ⟨⟨level, prover⟩, _, closing, closed, result⟩ := proven
      cases result
      exact TicketProver.seal_statement closed

theorem proveMerge_result {level : Nat} {left right result : ClusterAcc}
    {prover after : TicketProver zheng}
    (merged : (proveMerge hemera zheng beacon cluster level left right).run prover =
      .ok (result, after)) : result = foldAcc hemera left right := by
  simp only [proveMerge, StateT.run, bind_eq_ok_iff] at merged
  obtain ⟨next, _, returned⟩ := merged
  cases returned
  rfl

/-- Whenever `prove_fold_tree` returns, its root is that of the plain fold tree. -/
theorem proveFoldTree_root {leaves : List ClusterAcc} {root : ClusterAcc} {sealed : FoldSeal zheng}
    (proven : proveFoldTree hemera zheng beacon cluster leaves = .ok (root, sealed)) :
    leaves ≠ [] ∧ root = treeRoot hemera leaves := by
  match leaves with
  | [] => cases proven
  | [leaf] =>
      simp only [proveFoldTree, bind_eq_ok_iff] at proven
      obtain ⟨_, _, _, _, returned⟩ := proven
      cases returned
      exact ⟨List.cons_ne_nil _ _, rfl⟩
  | first :: second :: rest =>
      simp only [proveFoldTree, bind_eq_ok_iff] at proven
      obtain ⟨⟨level, prover⟩, tree, _, _, returned⟩ := proven
      cases returned
      refine ⟨List.cons_ne_nil _ _, congrArg (List.headD · ClusterAcc.default) ?_⟩
      exact FoldTree.levelsM_result (fun _ _ _ _ _ _ => proveMerge_result) tree

end Binding

section Completeness

variable {zheng : Zheng}

/-- The prover has folded `steps` rows, in a run that a complete zheng accepts. -/
def TicketProver.Ran (steps : Nat) (prover : TicketProver zheng) : Prop :=
  Step.Folded zheng prover.acc prover.transcript steps ∧ prover.steps = lenU64 steps

theorem TicketProver.new_ran : (TicketProver.new zheng).Ran 0 := ⟨.blank, rfl⟩

theorem TicketProver.foldMaterial_ok (complete : Step.Complete zheng) (hemera : Hemera)
    (material : List UInt8) {prover : TicketProver zheng} {steps : Nat} (ran : prover.Ran steps) :
    ∃ after, prover.foldMaterial hemera material = .ok after ∧ after.Ran (steps + 1) := by
  obtain ⟨folded, counted⟩ := ran
  have transcript : (if prover.steps = 0 then zheng.newTranscript else prover.transcript) =
      prover.transcript := by
    split_ifs with fresh
    · rw [counted, lenU64_eq_zero_iff] at fresh
      subst fresh
      generalize prover.acc = acc at folded
      generalize prover.transcript = transcript at folded
      cases folded
      rfl
    · rfl
  obtain ⟨acc, next, folds⟩ := complete.fold_succeeds folded
    (Step.limb (hemera.hash material) 0) (Step.limb (hemera.hash material) 8)
  refine ⟨⟨acc, next, satAdd prover.steps 1⟩, ?_, folded.step folds, ?_⟩
  · unfold foldMaterial
    rw [transcript]
    dsimp only [Step.addStep]
    rw [folds]
  · change satAdd prover.steps 1 = lenU64 (steps + 1)
    rw [counted, ← lenU64_one, satAdd_lenU64]

theorem TicketProver.seal_ok (complete : Step.Complete zheng) (hemera : Hemera)
    (beacon cluster : Particle) (sampleCount : UInt64) {prover : TicketProver zheng} {steps : Nat}
    (ran : prover.Ran (steps + 1)) :
    ∃ sealed, prover.seal hemera beacon cluster sampleCount = .ok sealed ∧
      verifyFoldSeal zheng sealed = true := by
  obtain ⟨folded, counted⟩ := ran
  obtain ⟨proof, decides, verifies⟩ :=
    complete.decides folded (ticketStatement hemera beacon cluster sampleCount)
  have nonzero : prover.steps ≠ 0 := by
    rw [counted, Ne, lenU64_eq_zero_iff]
    omega
  have accepted : verifySeal zheng prover.acc proof
      (ticketStatement hemera beacon cluster sampleCount) = true := by
    rw [verifySeal, Step.verifyGroup, complete.stepCount_eq folded, ← counted, if_neg nonzero,
      verifies]
  refine ⟨⟨prover.acc, proof, ticketStatement hemera beacon cluster sampleCount, prover.steps⟩,
    ?_, ?_⟩
  · unfold TicketProver.seal
    dsimp only
    rw [if_neg nonzero, decides]
    simp [accepted]
  · have positive : prover.steps > 0 := UInt64.pos_iff_ne_zero.mpr nonzero
    simp [verifyFoldSeal, accepted, complete.stepCount_eq folded, counted, counted ▸ positive]

theorem proveMerge_ok (complete : Step.Complete zheng) (hemera : Hemera) (beacon cluster : Particle)
    (level : Nat) (left right : ClusterAcc) {prover : TicketProver zheng} {steps : Nat}
    (ran : prover.Ran steps) :
    ∃ after, after.Ran (steps + 1) ∧
      (proveMerge hemera zheng beacon cluster level left right).run prover =
        .ok (foldAcc hemera left right, after) := by
  obtain ⟨after, folds, afterRan⟩ := TicketProver.foldMaterial_ok complete hemera
    (beacon.toList ++ cluster.toList ++ strBytes "fold" ++ leBytes 4 (levelU32 level) ++
      (pairId hemera left right).toList ++ left.commitment.toList ++ right.commitment.toList ++
      (foldAcc hemera left right).commitment.toList) ran
  refine ⟨after, afterRan, ?_⟩
  simp only [proveMerge, TicketProver.foldStepMaterial, StateT.run, folds, bind, Except.bind, pure,
    Except.pure]

/-- With a complete zheng, `prove_fold_tree` returns the root of the plain fold
tree and a seal that verifies. -/
theorem proveFoldTree_ok (complete : Step.Complete zheng) (hemera : Hemera)
    (beacon cluster : Particle) {leaves : List ClusterAcc} (nonempty : leaves ≠ []) :
    ∃ sealed, proveFoldTree hemera zheng beacon cluster leaves =
        .ok (treeRoot hemera leaves, sealed) ∧
      verifyFoldSeal zheng sealed = true := by
  match leaves with
  | [root] =>
      obtain ⟨prover, folds, ran⟩ := TicketProver.foldMaterial_ok complete hemera
        (beacon.toList ++ cluster.toList ++ strBytes "fold" ++ leBytes 4 0 ++
          (pairId hemera root (ClusterAcc.empty root.sumM.length)).toList ++
          root.commitment.toList ++ (ClusterAcc.empty root.sumM.length).commitment.toList ++
          root.commitment.toList) TicketProver.new_ran
      obtain ⟨sealed, seals, verifies⟩ :=
        TicketProver.seal_ok complete hemera beacon cluster root.k ran
      refine ⟨sealed, ?_, verifies⟩
      simp only [proveFoldTree, TicketProver.foldStepMaterial, folds, seals, bind, Except.bind, pure,
        Except.pure]
      rfl
  | first :: second :: rest =>
      have weaken (prover : TicketProver zheng) (started : ∃ steps, prover.Ran (steps + 1)) :
          ∃ steps, prover.Ran steps := by
        obtain ⟨steps, ran⟩ := started
        exact ⟨steps + 1, ran⟩
      have succeeds (level : Nat) (left right : ClusterAcc) (prover : TicketProver zheng)
          (valid : ∃ steps, prover.Ran steps) : ∃ after : TicketProver zheng,
            (∃ steps, after.Ran (steps + 1)) ∧
            (proveMerge hemera zheng beacon cluster level left right).run prover =
              .ok (foldAcc hemera left right, after) := by
        obtain ⟨steps, ran⟩ := valid
        obtain ⟨after, afterRan, merged⟩ :=
          proveMerge_ok complete hemera beacon cluster level left right ran
        exact ⟨after, ⟨steps, afterRan⟩, merged⟩
      obtain ⟨prover, _, started, tree⟩ := FoldTree.levelsM_run weaken succeeds
        (first :: second :: rest).length 0 (first :: second :: rest) ⟨0, TicketProver.new_ran⟩
      obtain ⟨steps, ran⟩ := started (.inl ⟨by simp, by simp⟩)
      obtain ⟨sealed, seals, verifies⟩ := TicketProver.seal_ok complete hemera beacon cluster
        (treeRoot hemera (first :: second :: rest)).k ran
      refine ⟨sealed, ?_, verifies⟩
      rw [treeRoot] at seals ⊢
      simp only [proveFoldTree, tree, seals, bind, Except.bind, pure, Except.pure]

end Completeness

end Foculus.Settlement

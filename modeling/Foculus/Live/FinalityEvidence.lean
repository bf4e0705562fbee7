import Foculus.Live.Finality
import Foculus.Live.Tip

namespace Foculus.Live

open Data

/-! # Finality evidence (`src/finality_evidence.rs`) -/

/-- `nullifier_set_hash` of `src/pay_proof.rs`. -/
def nullifierSetHash (hemera : Hemera) (nullifiers : List Particle) : Particle :=
  hemera.hash (leBytes 8 nullifiers.length ++ nullifiers.flatMap Vector.toList)

inductive FinalityKind where
  | localApplied
  | certified
deriving DecidableEq, Repr

/-- The tag in front of the fields; the two have different lengths. -/
def FinalityKind.domain : FinalityKind → List UInt8
  | .localApplied => strBytes "foculus-finality-v1-local"
  | .certified => strBytes "foculus-finality-v1-cert"

@[ext]
structure FinalityEvidence where
  bookId : Particle
  signalId : Particle
  height : UInt64
  root : Particle
  nullifierHash : Particle
  kind : FinalityKind
  binding : Particle
deriving DecidableEq

def bindBytes (domain : List UInt8) (bookId signalId : Particle) (height : UInt64)
    (root nullifierHash : Particle) (grade4 : Bool) : List UInt8 :=
  domain ++ bookId.toList ++ signalId.toList ++ u64Bytes height ++ root.toList ++
    nullifierHash.toList ++ [grade4.toUInt8]

def bind (hemera : Hemera) (domain : List UInt8) (bookId signalId : Particle) (height : UInt64)
    (root nullifierHash : Particle) (grade4 : Bool) : Particle :=
  hemera.hash (bindBytes domain bookId signalId height root nullifierHash grade4)

namespace FinalityEvidence

variable {zheng : Zheng}

/-- The evidence of one kind, over the tip as it is. -/
def issue (hemera : Hemera) (kind : FinalityKind) (bookId signalId : Particle) (tip : Tip zheng)
    (nullifiers : List Particle) : FinalityEvidence :=
  let nullifierHash := nullifierSetHash hemera nullifiers
  { bookId
    signalId
    height := tip.height
    root := tip.root
    nullifierHash
    kind
    binding := bind hemera kind.domain bookId signalId tip.height tip.root nullifierHash tip.grade4 }

def issueLocal (hemera : Hemera) (bookId signalId : Particle) (tip : Tip zheng)
    (nullifiers : List Particle) : FinalityEvidence :=
  issue hemera .localApplied bookId signalId tip nullifiers

def issueCertified (hemera : Hemera) (bookId signalId : Particle) (tip : Tip zheng)
    (nullifiers : List Particle) : FinalityEvidence :=
  issue hemera .certified bookId signalId tip nullifiers

def issueFromDomain (hemera : Hemera) (tru : Tru) (bookId signalId : Particle) (tip : Tip zheng)
    (nullifiers : List Particle) (phi : Fx) (domain : Domain)
    (uncertMass gap kappaD c kappaPrime : Fx) : Option FinalityEvidence :=
  match finalizes tru phi domain uncertMass gap kappaD c kappaPrime with
  | .final => some (issueCertified hemera bookId signalId tip nullifiers)
  | .pending => none

def verify (hemera : Hemera) (evidence : FinalityEvidence) (tip : Tip zheng) : Bool :=
  if !tip.grade4 then false
  else if tip.height ≠ evidence.height ∨ tip.root ≠ evidence.root then false
  else
    evidence.binding == bind hemera evidence.kind.domain evidence.bookId evidence.signalId
      evidence.height evidence.root evidence.nullifierHash true

/-- The evidence that the public constructors return over this tip. -/
inductive Issued (hemera : Hemera) (tru : Tru) (tip : Tip zheng) : FinalityEvidence → Prop where
  | issueLocal (bookId signalId : Particle) (nullifiers : List Particle) :
      Issued hemera tru tip (issueLocal hemera bookId signalId tip nullifiers)
  | issueFromDomain {bookId signalId : Particle} {nullifiers : List Particle} {phi : Fx}
      {domain : Domain} {uncertMass gap kappaD c kappaPrime : Fx} {evidence : FinalityEvidence} :
      issueFromDomain hemera tru bookId signalId tip nullifiers phi domain uncertMass gap kappaD c
        kappaPrime = some evidence →
      Issued hemera tru tip evidence

/-- What is hashed for evidence over a tip of this grade. -/
def preimage (evidence : FinalityEvidence) (grade4 : Bool) : List UInt8 :=
  bindBytes evidence.kind.domain evidence.bookId evidence.signalId evidence.height evidence.root
    evidence.nullifierHash grade4

theorem verify_eq_true_iff {hemera : Hemera} {evidence : FinalityEvidence} {tip : Tip zheng} :
    evidence.verify hemera tip = true ↔ tip.grade4 = true ∧ tip.height = evidence.height ∧
      tip.root = evidence.root ∧ evidence.binding = hemera.hash (evidence.preimage true) := by
  rw [verify]
  split_ifs with untrusted elsewhere
  · simp_all
  · simp only [false_iff]
    rintro ⟨_, height, root, _⟩
    exact elsewhere.elim (absurd height) (absurd root)
  · rw [not_or, not_not, not_not] at elsewhere
    simp_all [preimage, bind]

theorem Issued.spec {hemera : Hemera} {tru : Tru} {tip : Tip zheng} {evidence : FinalityEvidence}
    (issued : Issued hemera tru tip evidence) :
    evidence.height = tip.height ∧ evidence.root = tip.root ∧
      evidence.binding = hemera.hash (evidence.preimage tip.grade4) := by
  cases issued with
  | issueLocal bookId signalId nullifiers => exact ⟨rfl, rfl, rfl⟩
  | issueFromDomain returned =>
      rw [FinalityEvidence.issueFromDomain] at returned
      split at returned
      · cases returned
        exact ⟨rfl, rfl, rfl⟩
      · cases returned

/-- The fields behind the tag. -/
def fields (evidence : FinalityEvidence) (grade4 : Bool) :
    ((((Particle × Particle) × UInt64) × Particle) × Particle) × UInt8 :=
  (((((evidence.bookId, evidence.signalId), evidence.height), evidence.root),
    evidence.nullifierHash), grade4.toUInt8)

def fieldBytes (fields : ((((Particle × Particle) × UInt64) × Particle) × Particle) × UInt8) :
    List UInt8 :=
  fields.1.1.1.1.1.toList ++ fields.1.1.1.1.2.toList ++ u64Bytes fields.1.1.1.2 ++
    fields.1.1.2.toList ++ fields.1.2.toList ++ [fields.2]

theorem fieldBytes_fixedWidth : FixedWidth fieldBytes 137 :=
  ((((Particle.toList_fixedWidth.append Particle.toList_fixedWidth).append
    u64Bytes_fixedWidth).append Particle.toList_fixedWidth).append
    Particle.toList_fixedWidth).append FixedWidth.byte

theorem preimage_eq (evidence : FinalityEvidence) (grade4 : Bool) :
    evidence.preimage grade4 = evidence.kind.domain ++ fieldBytes (evidence.fields grade4) := by
  simp only [preimage, bindBytes, fieldBytes, fields, List.append_assoc]

theorem FinalityKind.eq_of_length {left right : FinalityKind}
    (same : left.domain.length = right.domain.length) : left = right := by
  have lengths : FinalityKind.localApplied.domain.length ≠
      FinalityKind.certified.domain.length := by decide
  cases left <;> cases right
  · rfl
  · exact absurd same lengths
  · exact absurd same.symm lengths
  · rfl

/-- Behind the tags the preimages are equally long, so equal preimages have tags
of one length, and with the tag cut off they have equal fields. -/
theorem preimage_inj {left right : FinalityEvidence} {leftGrade rightGrade : Bool}
    (same : left.preimage leftGrade = right.preimage rightGrade) :
    left.kind = right.kind ∧ left.fields leftGrade = right.fields rightGrade := by
  rw [preimage_eq, preimage_eq] at same
  have lengths := congrArg List.length same
  rw [List.length_append, List.length_append, fieldBytes_fixedWidth.length_eq,
    fieldBytes_fixedWidth.length_eq, Nat.add_right_cancel_iff] at lengths
  exact ⟨FinalityKind.eq_of_length lengths,
    fieldBytes_fixedWidth.injective (List.append_inj same lengths).2⟩

/-- The binding determines the evidence and the trust in the tip it was issued
on, over every tip and both kinds; and evidence over a trusted tip verifies on
every trusted tip with its height and root. -/
theorem binding_determines_evidence (hemera : Hemera) (tru : Tru) (tip : Tip zheng)
    (evidence : FinalityEvidence) (issued : Issued hemera tru tip evidence) :
    (∀ (other : FinalityEvidence) (tip' : Tip zheng),
      hemera.CollisionFree {evidence.preimage tip.grade4, other.preimage true} →
      other.binding = evidence.binding → other.verify hemera tip' = true →
      other = evidence ∧ tip.grade4 = true ∧ tip'.height = tip.height ∧ tip'.root = tip.root) ∧
    (tip.grade4 = true → ∀ tip' : Tip zheng, tip'.grade4 = true → tip'.height = tip.height →
      tip'.root = tip.root → evidence.verify hemera tip' = true) := by
  obtain ⟨height, root, bound⟩ := issued.spec
  constructor
  · intro other tip' free binding verified
    obtain ⟨_, height', root', bound'⟩ := verify_eq_true_iff.mp verified
    obtain ⟨kinds, same⟩ := preimage_inj (free.pair (bound.symm.trans (binding.symm.trans bound')))
    simp only [fields, Prod.mk.injEq] at same
    obtain ⟨⟨⟨⟨⟨books, signals⟩, heights⟩, roots⟩, nullifiers⟩, grades⟩ := same
    have trusted : tip.grade4 = true := by
      cases grade : tip.grade4 with
      | false =>
          rw [grade] at grades
          cases grades
      | true => rfl
    refine ⟨?_, trusted, ?_, ?_⟩
    · exact FinalityEvidence.ext books.symm signals.symm heights.symm roots.symm nullifiers.symm
        kinds.symm binding
    · rw [height', ← heights, height]
    · rw [root', ← roots, root]
  · intro trusted tip' trusted' height' root'
    rw [verify_eq_true_iff]
    refine ⟨trusted', height'.trans height.symm, root'.trans root.symm, ?_⟩
    rw [bound, trusted]

/-- Evidence over a local tip, checked on that tip. -/
theorem binding_determines_evidence_local :
    let tip : Tip Step.counting := Tip.fromLocal ⟨Particle.padded [5], none, 4⟩
    let evidence := issueLocal .truncating (Particle.padded [2]) (Particle.padded [7]) tip []
    Issued .truncating Tru.unit tip evidence ∧ evidence.verify .truncating tip = true ∧
      tip.grade4 = true ∧
      ∀ other : FinalityEvidence, other.preimage true = evidence.preimage true →
        other.binding = evidence.binding → other.verify .truncating tip = true →
        other = evidence := by
  intro tip evidence
  have issued : Issued .truncating Tru.unit tip evidence := .issueLocal _ _ _
  have determined := binding_determines_evidence .truncating Tru.unit tip evidence issued
  have verified := determined.2 rfl tip rfl rfl rfl
  refine ⟨issued, verified, rfl, ?_⟩
  intro other preimages binding accepted
  have free : Hemera.truncating.CollisionFree
      {evidence.preimage tip.grade4, other.preimage true} := by
    have single : evidence.preimage tip.grade4 = other.preimage true := preimages.symm
    rw [single]
    intro left leftMember right rightMember _
    simp only [Set.mem_insert_iff, Set.mem_singleton_iff, or_self] at leftMember rightMember
    rw [leftMember, rightMember]
  exact (determined.1 other tip free binding accepted).1

end FinalityEvidence

end Foculus.Live

import Foculus.Epoch.Certificate

namespace Foculus.Epoch

open Data Settlement Live

/-! # What the hash of a certificate binds

Behind fields of fixed width `cert_hash` appends up to three sections.  Only that
of φ* says whether it is there, so a receipt hash that starts with the byte 1,
followed by the absent tag 0, reads as a φ* hash that ends in the byte 0.  No
other two certificates of different content share their bytes. -/

/-- What the optional sections are made of. -/
structure CertSections where
  receiptHash : Option Particle
  phiStarHash : Option Particle
  counters : Option (UInt64 × UInt64)

namespace CertSections

def settleBytes : Option Particle → List UInt8
  | some hash => hash.toList
  | none => []

def phiBytes : Option Particle → List UInt8
  | some hash => 1 :: hash.toList
  | none => [0]

def sealBytes : Option (UInt64 × UInt64) → List UInt8
  | some (steps, count) => u64Bytes steps ++ u64Bytes count
  | none => []

def hashBytes (sections : CertSections) : List UInt8 :=
  settleBytes sections.receiptHash ++ phiBytes sections.phiStarHash

def bytes (sections : CertSections) : List UInt8 :=
  sections.hashBytes ++ sealBytes sections.counters

/-- A receipt hash and the absent tag on the one side are a present tag and a φ*
hash on the other. -/
def Overlaps (left right : CertSections) : Prop :=
  ∃ receipt star counters, left = ⟨some receipt, none, counters⟩ ∧
    right = ⟨none, some star, counters⟩ ∧ receipt.toList ++ [0] = 1 :: star.toList

theorem Overlaps.hashBytes_eq {left right : CertSections} (overlaps : Overlaps left right) :
    left.hashBytes = right.hashBytes := by
  obtain ⟨_, _, _, rfl, rfl, same⟩ := overlaps
  exact same

theorem Overlaps.counters_eq {left right : CertSections} (overlaps : Overlaps left right) :
    left.counters = right.counters := by
  obtain ⟨_, _, _, rfl, rfl, _⟩ := overlaps
  rfl

theorem Overlaps.ne {left right : CertSections} (overlaps : Overlaps left right) :
    left ≠ right := by
  obtain ⟨_, _, _, rfl, rfl, _⟩ := overlaps
  intro same
  cases same

theorem hashBytes_length (sections : CertSections) :
    sections.hashBytes.length = 1 ∨ sections.hashBytes.length = 33 ∨
      sections.hashBytes.length = 65 := by
  obtain ⟨receipt, star, _⟩ := sections
  cases receipt <;> cases star <;> simp [hashBytes, settleBytes, phiBytes]

theorem sealBytes_length (counters : Option (UInt64 × UInt64)) :
    (sealBytes counters).length = 0 ∨ (sealBytes counters).length = 16 := by
  cases counters <;> simp [sealBytes]

theorem sealBytes_injective : Function.Injective sealBytes := by
  have width : ∀ steps count, (sealBytes (some (steps, count))).length = 16 := by
    intro steps count
    simp [sealBytes]
  intro left right same
  rcases left with _ | ⟨steps, count⟩ <;> rcases right with _ | ⟨otherSteps, otherCount⟩
  · rfl
  · cases (congrArg List.length same).trans (width otherSteps otherCount)
  · cases (congrArg List.length same).symm.trans (width steps count)
  · have pairs : (steps, count) = (otherSteps, otherCount) :=
      (u64Bytes_fixedWidth.append u64Bytes_fixedWidth).injective same
    rw [pairs]

theorem hashBytes_eq_iff {left right : CertSections} (counters : left.counters = right.counters) :
    left.hashBytes = right.hashBytes ↔ left = right ∨ Overlaps left right ∨ Overlaps right left := by
  constructor
  · intro same
    have lengths := congrArg List.length same
    obtain ⟨receipt, star, _⟩ := left
    obtain ⟨receipt', star', _⟩ := right
    cases counters
    -- the lengths leave one pair of presences besides the equal ones
    rcases receipt with _ | receipt <;> rcases star with _ | star <;>
      rcases receipt' with _ | receipt' <;> rcases star' with _ | star' <;>
      simp only [hashBytes, settleBytes, phiBytes, List.nil_append, List.length_append,
        List.length_cons, List.length_nil, Vector.length_toList, Nat.reduceAdd,
        Nat.reduceEqDiff] at same lengths
    · exact .inl rfl
    · rw [List.cons.injEq, Vector.toList_inj] at same
      rw [same.2]
      exact .inl rfl
    · exact .inr (.inr ⟨_, _, _, rfl, rfl, same.symm⟩)
    · exact .inr (.inl ⟨_, _, _, rfl, rfl, same⟩)
    · rw [List.append_cancel_right_eq, Vector.toList_inj] at same
      rw [same]
      exact .inl rfl
    · obtain ⟨receipts, stars⟩ := List.append_inj same (by simp)
      rw [List.cons.injEq, Vector.toList_inj] at stars
      rw [Vector.toList_inj.mp receipts, stars.2]
      exact .inl rfl
  · rintro (rfl | overlaps | overlaps)
    · rfl
    · exact overlaps.hashBytes_eq
    · exact overlaps.hashBytes_eq.symm

/-- The hash sections differ in length by multiples of 32 and the counters by 16,
so equal bytes are cut at one place. -/
theorem bytes_eq_iff {left right : CertSections} :
    left.bytes = right.bytes ↔ left = right ∨ Overlaps left right ∨ Overlaps right left := by
  constructor
  · intro same
    have lengths := congrArg List.length same
    rw [bytes, bytes, List.length_append, List.length_append] at lengths
    have leftHashes := left.hashBytes_length
    have rightHashes := right.hashBytes_length
    have leftSeal := sealBytes_length left.counters
    have rightSeal := sealBytes_length right.counters
    obtain ⟨hashes, seals⟩ := List.append_inj same (by omega)
    exact (hashBytes_eq_iff (sealBytes_injective seals)).mp hashes
  · intro related
    have counters : left.counters = right.counters := by
      rcases related with rfl | overlaps | overlaps
      · rfl
      · exact overlaps.counters_eq
      · exact overlaps.counters_eq.symm
    rw [bytes, bytes, (hashBytes_eq_iff counters).mpr related, counters]

end CertSections

namespace EpochCertificate

variable {zheng : Zheng}

/-- The fields in front of the sections. -/
def header (cert : EpochCertificate zheng) :
    ((((UInt64 × UInt64) × Particle) × UInt8) × Particle) × Particle :=
  (((((cert.epoch, cert.tipHeight), cert.tipRoot), cert.tipTrust.byte), cert.claimsRoot),
    cert.beacon.beacon)

def headerBytes (header : ((((UInt64 × UInt64) × Particle) × UInt8) × Particle) × Particle) :
    List UInt8 :=
  u64Bytes header.1.1.1.1.1 ++ u64Bytes header.1.1.1.1.2 ++ header.1.1.1.2.toList ++
    [header.1.1.2] ++ header.1.2.toList ++ header.2.toList

theorem headerBytes_fixedWidth : FixedWidth headerBytes 113 :=
  ((((u64Bytes_fixedWidth.append u64Bytes_fixedWidth).append
    Particle.toList_fixedWidth).append FixedWidth.byte).append
    Particle.toList_fixedWidth).append Particle.toList_fixedWidth

def sections (cert : EpochCertificate zheng) : CertSections where
  receiptHash := cert.settle.map SettleReceipt.receiptHash
  phiStarHash := cert.phiStarHash
  counters := cert.ticketBatchSeal.map fun sealed => (sealed.steps, zheng.stepCount sealed.acc)

/-- The bytes that `cert_hash` hashes. -/
def preimage (cert : EpochCertificate zheng) : List UInt8 :=
  strBytes "foculus-epoch-cert-v2" ++ (headerBytes cert.header ++ cert.sections.bytes)

theorem certHash_eq (hemera : Hemera) (cert : EpochCertificate zheng) :
    Epoch.certHash hemera cert = hemera.hash cert.preimage := by
  obtain ⟨_, _, _, _, _, _, star, settle, batchSeal, _⟩ := cert
  cases settle <;> cases star <;> cases batchSeal <;>
    simp only [Epoch.certHash, preimage, headerBytes, header, sections, CertSections.bytes,
      CertSections.hashBytes, CertSections.settleBytes, CertSections.phiBytes,
      CertSections.sealBytes, Option.map_some, Option.map_none, List.append_assoc, List.nil_append]

theorem TipTrust.byte_injective : Function.Injective TipTrust.byte := by
  intro left right same
  cases left <;> cases right <;> first | rfl | cases same

/-- The fields that the hash of a certificate is there to bind. -/
structure Agree (left right : EpochCertificate zheng) : Prop where
  epoch_eq : left.epoch = right.epoch
  tipHeight_eq : left.tipHeight = right.tipHeight
  tipRoot_eq : left.tipRoot = right.tipRoot
  tipTrust_eq : left.tipTrust = right.tipTrust
  claimsRoot_eq : left.claimsRoot = right.claimsRoot
  beacon_eq : left.beacon.beacon = right.beacon.beacon
  receiptHash_eq : left.settle.map SettleReceipt.receiptHash =
    right.settle.map SettleReceipt.receiptHash
  phiStarHash_eq : left.phiStarHash = right.phiStarHash
  counters_eq : left.ticketBatchSeal.map (fun sealed => (sealed.steps, zheng.stepCount sealed.acc)) =
    right.ticketBatchSeal.map fun sealed => (sealed.steps, zheng.stepCount sealed.acc)

theorem agree_iff {left right : EpochCertificate zheng} :
    left.Agree right ↔ left.header = right.header ∧ left.sections = right.sections := by
  simp only [header, sections, Prod.mk.injEq, CertSections.mk.injEq, TipTrust.byte_injective.eq_iff]
  constructor
  · intro agree
    exact ⟨⟨⟨⟨⟨⟨agree.epoch_eq, agree.tipHeight_eq⟩, agree.tipRoot_eq⟩, agree.tipTrust_eq⟩,
      agree.claimsRoot_eq⟩, agree.beacon_eq⟩, agree.receiptHash_eq, agree.phiStarHash_eq,
      agree.counters_eq⟩
  · rintro ⟨⟨⟨⟨⟨⟨epoch, height⟩, root⟩, trust⟩, claims⟩, beacon⟩, receipt, star, counters⟩
    exact ⟨epoch, height, root, trust, claims, beacon, receipt, star, counters⟩

/-- One of the two carries only a receipt, the other in its place only a φ* hash
that is the receipt hash moved by one byte. -/
def Mistakable (left right : EpochCertificate zheng) : Prop :=
  left.header = right.header ∧
    (left.sections.Overlaps right.sections ∨ right.sections.Overlaps left.sections)

theorem preimage_eq_iff {left right : EpochCertificate zheng} :
    left.preimage = right.preimage ↔ left.Agree right ∨ left.Mistakable right := by
  rw [agree_iff, Mistakable, ← and_or_left, ← CertSections.bytes_eq_iff, preimage, preimage,
    List.append_cancel_left_eq]
  constructor
  · intro same
    obtain ⟨headers, sections⟩ := List.append_inj same
      (by rw [headerBytes_fixedWidth.length_eq, headerBytes_fixedWidth.length_eq])
    exact ⟨headerBytes_fixedWidth.injective headers, sections⟩
  · rintro ⟨headers, sections⟩
    rw [headers, sections]

theorem Mistakable.not_agree {left right : EpochCertificate zheng}
    (mistakable : left.Mistakable right) : ¬ left.Agree right := by
  intro agree
  obtain ⟨_, sections⟩ := agree_iff.mp agree
  rcases mistakable.2 with overlaps | overlaps
  · exact overlaps.ne sections
  · exact overlaps.ne sections.symm

/-- Certificates of one hash agree unless a receipt hash of the one can be read
as the φ* hash of the other. -/
theorem cert_hash_binds_fields (hemera : Hemera) (left right : EpochCertificate zheng)
    (free : hemera.CollisionFree {left.preimage, right.preimage}) :
    (Epoch.certHash hemera left = Epoch.certHash hemera right → left.Agree right) ↔
      ¬ left.Mistakable right := by
  rw [certHash_eq, certHash_eq]
  constructor
  · intro binds mistakable
    exact mistakable.not_agree
      (binds (congrArg hemera.hash (preimage_eq_iff.mpr (.inr mistakable))))
  · intro distinct same
    exact (preimage_eq_iff.mp (free.pair same)).resolve_right distinct

end EpochCertificate

/-- The budget of the receipt is not covered. -/
theorem cert_hash_binds_fields_two_budgets :
    certHash Hemera.truncating (linkCert 1 1000 1000) =
      certHash Hemera.truncating (linkCert 1 1000 2000) ∧
    (linkCert 1 1000 1000).settle.map SettleReceipt.budget ≠
      (linkCert 1 1000 2000).settle.map SettleReceipt.budget ∧
    (linkCert 1 1000 1000).Agree (linkCert 1 1000 2000) := by
  have same : (linkCert 1 1000 1000).preimage = (linkCert 1 1000 2000).preimage := rfl
  have hashes : certHash Hemera.truncating (linkCert 1 1000 1000) =
      certHash Hemera.truncating (linkCert 1 1000 2000) := by
    rw [EpochCertificate.certHash_eq, EpochCertificate.certHash_eq, same]
  refine ⟨hashes, by decide, (EpochCertificate.cert_hash_binds_fields Hemera.truncating _ _
    (Hemera.collisionFree_of_eq same)).mpr ?_ hashes⟩
  -- neither of the two carries a φ* hash
  rintro ⟨_, ⟨_, _, _, _, absent, _⟩ | ⟨_, _, _, _, absent, _⟩⟩
  · cases congrArg CertSections.phiStarHash absent
  · cases congrArg CertSections.phiStarHash absent

/-- The certificate without its receipt, which the hash of the receipt, moved by
one byte, replaces as the hash of φ*. -/
def strippedCert (name : UInt8) (amount budget : UInt64) : EpochCertificate Step.counting :=
  { linkCert name amount budget with
    settle := none
    phiStarHash := some (Particle.padded
      ((linkReceipt name amount budget).receiptHash.toList.tail ++ [0])) }

/-- A certificate that settles and one that does not, both accepted, have one
preimage. -/
theorem stripped_cert_has_same_hash :
    verifyEpochCert sampleCrates (linkCert 1 (2 ^ 56) (2 ^ 56)) none = true ∧
    verifyEpochCert sampleCrates (strippedCert 1 (2 ^ 56) (2 ^ 56)) none = true ∧
    Hemera.truncating.CollisionFree {(linkCert 1 (2 ^ 56) (2 ^ 56)).preimage,
      (strippedCert 1 (2 ^ 56) (2 ^ 56)).preimage} ∧
    certHash Hemera.truncating (linkCert 1 (2 ^ 56) (2 ^ 56)) =
      certHash Hemera.truncating (strippedCert 1 (2 ^ 56) (2 ^ 56)) ∧
    ¬ (linkCert 1 (2 ^ 56) (2 ^ 56)).Agree (strippedCert 1 (2 ^ 56) (2 ^ 56)) := by
  have runs : verifyEpochCert sampleCrates (linkCert 1 (2 ^ 56) (2 ^ 56)) none = true ∧
      verifyEpochCert sampleCrates (strippedCert 1 (2 ^ 56) (2 ^ 56)) none = true ∧
      (linkCert 1 (2 ^ 56) (2 ^ 56)).preimage = (strippedCert 1 (2 ^ 56) (2 ^ 56)).preimage := by
    decide +kernel
  obtain ⟨settles, strips, same⟩ := runs
  refine ⟨settles, strips, Hemera.collisionFree_of_eq same, ?_, ?_⟩
  · rw [EpochCertificate.certHash_eq, EpochCertificate.certHash_eq, same]
  · intro agree
    cases agree.receiptHash_eq

end Foculus.Epoch

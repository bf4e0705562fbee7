import Foculus.Gossip.Radio

namespace Foculus.Gossip

open Data Settlement

/-! # What a peer drops as already seen -/

namespace SettleMsg

/-- The bytes whose hash is the content id, where it is a hash. -/
def preimage : SettleMsg → Option (List UInt8)
  | claimAnnounce _ _ _ _ => none
  | selfAcc topic miner acc => some (selfAccBytes topic miner acc)
  | receiptHash topic hash epoch => some (receiptBytes topic hash epoch)

/-- Which messages a content id does not tell apart. -/
def Confusable (hemera : Hemera) : SettleMsg → SettleMsg → Prop
  | claimAnnounce _ left _ _, claimAnnounce _ right _ _ => left = right
  | selfAcc topic miner acc, selfAcc otherTopic otherMiner otherAcc =>
      topic = otherTopic ∧ miner = otherMiner ∧ acc.commitment = otherAcc.commitment ∧
        acc.k = otherAcc.k
  | receiptHash topic hash epoch, receiptHash otherTopic otherHash otherEpoch =>
      topic = otherTopic ∧ hash = otherHash ∧ epoch = otherEpoch
  | claimAnnounce _ claimId _ _, hashed => hashed.preimage.map hemera.hash = some claimId
  | hashed, claimAnnounce _ claimId _ _ => hashed.preimage.map hemera.hash = some claimId
  | _, _ => False

theorem selfAccBytes_inj {topic otherTopic : Topic} {miner otherMiner : Particle}
    {acc otherAcc : ClusterAcc}
    (same : selfAccBytes topic miner acc = selfAccBytes otherTopic otherMiner otherAcc) :
    topic = otherTopic ∧ miner = otherMiner ∧ acc.commitment = otherAcc.commitment ∧
      acc.k = otherAcc.k := by
  obtain ⟨same, k⟩ := List.append_inj' same (by simp)
  obtain ⟨same, commitment⟩ := List.append_inj' same (by simp)
  obtain ⟨same, miner⟩ := List.append_inj' same (by simp)
  obtain ⟨_, topic⟩ := List.append_inj' same (by simp)
  exact ⟨Vector.toList_inj.mp topic, Vector.toList_inj.mp miner, Vector.toList_inj.mp commitment,
    u64Bytes_inj k⟩

theorem receiptBytes_inj {topic otherTopic : Topic} {hash otherHash : Particle}
    {epoch otherEpoch : UInt64}
    (same : receiptBytes topic hash epoch = receiptBytes otherTopic otherHash otherEpoch) :
    topic = otherTopic ∧ hash = otherHash ∧ epoch = otherEpoch := by
  obtain ⟨same, epoch⟩ := List.append_inj' same (by simp)
  obtain ⟨same, hash⟩ := List.append_inj' same (by simp)
  obtain ⟨_, topic⟩ := List.append_inj' same (by simp)
  exact ⟨Vector.toList_inj.mp topic, Vector.toList_inj.mp hash, u64Bytes_inj epoch⟩

theorem selfAccBytes_ne_receiptBytes {topic otherTopic : Topic} {miner hash : Particle}
    {acc : ClusterAcc} {epoch : UInt64} :
    selfAccBytes topic miner acc ≠ receiptBytes otherTopic hash epoch := by
  intro same
  have lengths := congrArg List.length same
  have selfacc : (strBytes "selfacc").length = 7 := by decide
  have rcpt : (strBytes "rcpt").length = 4 := by decide
  simp [selfAccBytes, receiptBytes, selfacc, rcpt] at lengths

def preimages (msgs : List SettleMsg) : Set (List UInt8) :=
  {bytes | ∃ msg ∈ msgs, msg.preimage = some bytes}

theorem contentId_eq_iff {hemera : Hemera} {msgs : List SettleMsg} {left right : SettleMsg}
    (free : hemera.CollisionFree (preimages msgs)) (leftMember : left ∈ msgs)
    (rightMember : right ∈ msgs) :
    left.contentId hemera = right.contentId hemera ↔ Confusable hemera left right := by
  have hashes {first second : List UInt8} (leftBytes : left.preimage = some first)
      (rightBytes : right.preimage = some second) :
      hemera.hash first = hemera.hash second ↔ first = second :=
    ⟨free ⟨left, leftMember, leftBytes⟩ ⟨right, rightMember, rightBytes⟩, congrArg hemera.hash⟩
  cases left with
  | claimAnnounce topic claimId neuron claim =>
      cases right <;> simp [contentId, Confusable, preimage, eq_comm]
  | selfAcc topic miner acc =>
      cases right with
      | claimAnnounce => simp [contentId, Confusable, preimage]
      | selfAcc otherTopic otherMiner otherAcc =>
          refine (hashes rfl rfl).trans ⟨selfAccBytes_inj, ?_⟩
          intro same
          obtain ⟨rfl, rfl, commitment, k⟩ := same
          rw [selfAccBytes, selfAccBytes, commitment, k]
      | receiptHash otherTopic hash epoch =>
          exact (hashes rfl rfl).trans ⟨selfAccBytes_ne_receiptBytes, False.elim⟩
  | receiptHash topic hash epoch =>
      cases right with
      | claimAnnounce => simp [contentId, Confusable, preimage]
      | selfAcc otherTopic otherMiner otherAcc =>
          exact (hashes rfl rfl).trans ⟨fun same => selfAccBytes_ne_receiptBytes same.symm, False.elim⟩
      | receiptHash otherTopic otherHash otherEpoch =>
          refine (hashes rfl rfl).trans ⟨receiptBytes_inj, ?_⟩
          intro same
          obtain ⟨rfl, rfl, rfl⟩ := same
          rfl

end SettleMsg

/-- What can happen to a peer: a message from `SettleMesh::publish` or from
`ingest`, and what its own node does. -/
inductive Arrival where
  | publish (msg : SettleMsg)
  | ingest (msg : SettleMsg)
  | subscribe (topic : Topic)
  | drain
  | requeue (rest : List SettleMsg)

/-- A delivered message and whether it was taken. -/
abbrev Delivery := SettleMsg × Bool

section Runs

variable (hemera : Hemera)

def delivered (peer : PeerState) (log : List Delivery) (msg : SettleMsg) :
    PeerState × List Delivery :=
  ((peer.deliver hemera msg).1, log ++ [(msg, (peer.deliver hemera msg).2)])

def receive : PeerState × List Delivery → Arrival → PeerState × List Delivery
  | (peer, log), .publish msg => delivered hemera peer log msg
  | (peer, log), .ingest msg =>
      if peer.accepts msg.topic then delivered hemera peer log msg else (peer, log)
  | (peer, log), .subscribe topic => (peer.subscribe topic, log)
  | (peer, log), .drain => (peer.drain.2, log)
  | (peer, log), .requeue rest => (peer.requeue rest, log)

/-- The deliveries of a run, from a peer that has seen nothing. -/
def deliveries (arrivals : List Arrival) : List Delivery :=
  (arrivals.foldl (receive hemera) (PeerState.default, [])).2

variable {hemera}

theorem receive_ingest (peer : PeerState) (log : List Delivery) (msg : SettleMsg) :
    (receive hemera (peer, log) (.ingest msg)).1 = ingest hemera peer msg := by
  cases accepts : peer.accepts msg.topic <;> simp [receive, ingest, delivered, accepts]

def cids (hemera : Hemera) (log : List Delivery) : List Particle :=
  log.map fun delivery => delivery.1.contentId hemera

/-- The seen set is what was delivered, and a verdict says whether it was new. -/
structure Recorded (hemera : Hemera) (peer : PeerState) (log : List Delivery) : Prop where
  seen : ∀ cid, cid ∈ peer.seen ↔ cid ∈ cids hemera log
  verdicts : ∀ earlier delivery later, log = earlier ++ delivery :: later →
    (delivery.2 = false ↔ delivery.1.contentId hemera ∈ cids hemera earlier)

theorem Recorded.delivered {peer : PeerState} {log : List Delivery}
    (recorded : Recorded hemera peer log) (msg : SettleMsg) :
    Recorded hemera (delivered hemera peer log msg).1 (delivered hemera peer log msg).2 := by
  have verdict : (peer.deliver hemera msg).2 = false ↔
      msg.contentId hemera ∈ cids hemera log := by
    rw [← recorded.seen, Std.ExtTreeSet.mem_iff_contains]
    cases known : peer.seen.contains (msg.contentId hemera) with
    | true => simp [PeerState.deliver_known known]
    | false => simp [PeerState.deliver_new known]
  constructor
  · intro cid
    simp only [Gossip.delivered, cids, List.map_append, List.map_singleton, List.mem_append,
      List.mem_singleton]
    cases known : peer.seen.contains (msg.contentId hemera) with
    | true =>
        have member : msg.contentId hemera ∈ cids hemera log :=
          (recorded.seen _).mp (Std.ExtTreeSet.mem_iff_contains.mpr known)
        rw [PeerState.deliver_known known, recorded.seen]
        refine ⟨.inl, fun either => either.elim id fun same => ?_⟩
        rwa [same]
    | false =>
        rw [PeerState.deliver_new known]
        change cid ∈ peer.seen.insert _ ↔ _
        rw [Std.ExtTreeSet.mem_insert, Std.LawfulEqCmp.compare_eq_iff_eq, recorded.seen, or_comm,
          eq_comm]
        rfl
  · intro earlier delivery later split
    rcases List.eq_nil_or_concat later with rfl | ⟨front, last, rfl⟩
    · obtain ⟨rfl, same⟩ := List.append_inj' split rfl
      cases same
      exact verdict
    · rw [List.concat_eq_append, ← List.cons_append, ← List.append_assoc] at split
      obtain ⟨split, _⟩ := List.append_inj' split rfl
      exact recorded.verdicts earlier delivery front split

theorem Recorded.frame {peer other : PeerState} {log : List Delivery}
    (recorded : Recorded hemera peer log) (seen : other.seen = peer.seen) :
    Recorded hemera other log := ⟨fun cid => by rw [seen, recorded.seen], recorded.verdicts⟩

theorem Recorded.receive {peer : PeerState} {log : List Delivery}
    (recorded : Recorded hemera peer log) (arrival : Arrival) :
    Recorded hemera (receive hemera (peer, log) arrival).1 (receive hemera (peer, log) arrival).2 := by
  cases arrival with
  | publish msg => exact recorded.delivered msg
  | ingest msg =>
      cases accepts : peer.accepts msg.topic with
      | true => simpa [Gossip.receive, accepts] using recorded.delivered msg
      | false => simpa [Gossip.receive, accepts] using recorded
  | subscribe topic => exact recorded.frame rfl
  | drain => exact recorded.frame rfl
  | requeue rest => exact recorded.frame rfl

theorem deliveries_recorded (hemera : Hemera) (arrivals : List Arrival) :
    ∃ peer, Recorded hemera peer (deliveries hemera arrivals) := by
  suffices run : Recorded hemera (arrivals.foldl (receive hemera) (PeerState.default, [])).1
      (arrivals.foldl (receive hemera) (PeerState.default, [])).2 from ⟨_, run⟩
  induction arrivals using List.reverseRecOn with
  | nil =>
      refine ⟨fun cid => by simp [PeerState.default, cids], ?_⟩
      intro earlier delivery later split
      simp at split
  | append_singleton arrivals arrival ih =>
      rw [List.foldl_append]
      exact ih.receive arrival

/-- A message is dropped only if an earlier one is equal to it. -/
def OnlyRepeatsDropped (log : List Delivery) : Prop :=
  ∀ earlier msg later, log = earlier ++ (msg, false) :: later → msg ∈ earlier.map Prod.fst

/-- No message agrees, when it comes for the first time, with an earlier one in
the fields that identify it. -/
def Unconfused (hemera : Hemera) (msgs : List SettleMsg) : Prop :=
  ∀ earlier msg later, msgs = earlier ++ msg :: later → msg ∉ earlier →
    ∀ other ∈ earlier, ¬ SettleMsg.Confusable hemera other msg

/-- The content id of a claim announcement is the claim id it carries, and that of
an accumulator leaves out its sums and samples. -/
theorem onlyRepeatsDropped_iff {arrivals : List Arrival}
    (free : hemera.CollisionFree
      (SettleMsg.preimages ((deliveries hemera arrivals).map Prod.fst))) :
    OnlyRepeatsDropped (deliveries hemera arrivals) ↔
      Unconfused hemera ((deliveries hemera arrivals).map Prod.fst) := by
  obtain ⟨peer, recorded⟩ := deliveries_recorded hemera arrivals
  generalize deliveries hemera arrivals = log at free recorded ⊢
  constructor
  · intro onlyRepeats earlier msg later split new other member confusable
    obtain ⟨front, back, rfl, rfl, backSplit⟩ := List.map_eq_append_iff.mp split
    obtain ⟨delivery, rest, rfl, rfl, rfl⟩ := List.map_eq_cons_iff.mp backSplit
    obtain ⟨twin, twinMember, rfl⟩ := List.mem_map.mp member
    have same := (SettleMsg.contentId_eq_iff free
      (List.mem_map_of_mem (List.mem_append_left _ twinMember))
      (List.mem_map_of_mem (List.mem_append_right _ List.mem_cons_self))).mpr confusable
    have dropped : delivery.2 = false := (recorded.verdicts front delivery rest rfl).mpr
      (List.mem_map.mpr ⟨twin, twinMember, same⟩)
    refine new (onlyRepeats front delivery.1 rest ?_)
    rw [← dropped]
  · intro unconfused earlier msg later split
    by_contra new
    obtain ⟨twin, twinMember, same⟩ := List.mem_map.mp
      ((recorded.verdicts earlier (msg, false) later split).mp rfl)
    refine unconfused (earlier.map Prod.fst) msg (later.map Prod.fst) (by rw [split]; simp) new
      twin.1 (List.mem_map_of_mem twinMember) ?_
    refine (SettleMsg.contentId_eq_iff free ?_ ?_).mp same
    · rw [split]
      exact List.mem_map_of_mem (List.mem_append_left _ twinMember)
    · rw [split]
      exact List.mem_map.mpr ⟨(msg, false), List.mem_append_right _ List.mem_cons_self, rfl⟩

end Runs

section Forgeries

def genuineClaim : SettleMsg :=
  .claimAnnounce (Particle.padded [9]) sampleClaim.id sampleClaim.neuron sampleClaim

def forgedClaim : SettleMsg :=
  .claimAnnounce (Particle.padded [9]) sampleClaim.id sampleClaim.neuron
    { sampleClaim with links := [] }

def genuineAcc : SettleMsg := .selfAcc (Particle.padded [9]) (Particle.padded [5]) sampleAcc

def forgedAcc : SettleMsg :=
  .selfAcc (Particle.padded [9]) (Particle.padded [5]) { sampleAcc with sumM := [] }

/-- The second message is dropped though it differs from the first. -/
theorem not_onlyRepeatsDropped {first second : SettleMsg} {log : List Delivery}
    (msgs : log.map Prod.fst = [first, second]) (verdicts : log.map Prod.snd = [true, false])
    (different : second ≠ first) : ¬ OnlyRepeatsDropped log := by
  have split : log = (log.map Prod.fst).zip (log.map Prod.snd) := by
    rw [List.zip_map', List.map_id']
  rw [msgs, verdicts] at split
  intro onlyRepeats
  have member := onlyRepeats [(first, true)] second [] split
  exact different (by simpa using member)

def forgeries : List SettleMsg := [forgedClaim, genuineClaim, forgedAcc, genuineAcc]

theorem forgeries_free :
    Hemera.truncating.CollisionFree (SettleMsg.preimages forgeries) := by
  have only (bytes : List UInt8) (member : bytes ∈ SettleMsg.preimages forgeries) :
      bytes = SettleMsg.selfAccBytes (Particle.padded [9]) (Particle.padded [5]) sampleAcc := by
    obtain ⟨msg, member, hashed⟩ := member
    simp only [forgeries, List.mem_cons, List.not_mem_nil, or_false] at member
    rcases member with rfl | rfl | rfl | rfl
    · cases hashed
    · cases hashed
    · exact (Option.some.inj hashed).symm
    · exact (Option.some.inj hashed).symm
  intro left leftMember right rightMember _
  rw [only left leftMember, only right rightMember]

theorem forged_suppresses_genuine :
    Hemera.truncating.CollisionFree (SettleMsg.preimages forgeries) ∧
      ¬ OnlyRepeatsDropped
        (deliveries Hemera.truncating [.publish forgedClaim, .publish genuineClaim]) ∧
      ¬ OnlyRepeatsDropped
        (deliveries Hemera.truncating [.ingest forgedAcc, .ingest genuineAcc]) := by
  refine ⟨forgeries_free, ?_, ?_⟩
  · refine not_onlyRepeatsDropped rfl (by decide +kernel) ?_
    intro same
    obtain ⟨-, -, -, claims⟩ := SettleMsg.claimAnnounce.inj same
    have links := congrArg (fun claim => claim.links.length) claims
    exact absurd links (by decide)
  · refine not_onlyRepeatsDropped rfl (by decide +kernel) ?_
    intro same
    obtain ⟨-, -, accs⟩ := SettleMsg.selfAcc.inj same
    have sums := congrArg (fun acc => acc.sumM.length) accs
    exact absurd sums (by decide)

theorem onlyRepeatsDropped_iff_sample :
    OnlyRepeatsDropped (deliveries Hemera.truncating [.ingest genuineAcc, .publish genuineAcc]) ↔
      Unconfused Hemera.truncating
        ((deliveries Hemera.truncating [.ingest genuineAcc, .publish genuineAcc]).map Prod.fst) := by
  refine onlyRepeatsDropped_iff (forgeries_free.mono ?_)
  intro bytes covered
  obtain ⟨msg, member, hashed⟩ := covered
  have both : (deliveries Hemera.truncating [.ingest genuineAcc, .publish genuineAcc]).map Prod.fst =
      [genuineAcc, genuineAcc] := rfl
  rw [both] at member
  have isAcc : msg = genuineAcc := by simpa using member
  exact ⟨msg, by simp [forgeries, isAcc], hashed⟩

end Forgeries

end Foculus.Gossip

import Foculus.Settlement.Rewards

namespace Foculus.Gossip

open Settlement

/-! # Settle messages (`src/gossip.rs`) -/

abbrev Topic := Particle

inductive SettleMsg where
  | claimAnnounce (topic : Topic) (claimId neuron : Particle) (claim : RewardClaim)
  | selfAcc (topic : Topic) (miner : Particle) (acc : ClusterAcc)
  | receiptHash (topic : Topic) (receiptHash : Particle) (epoch : UInt64)

namespace SettleMsg

def selfAccBytes (topic : Topic) (miner : Particle) (acc : ClusterAcc) : List UInt8 :=
  strBytes "selfacc" ++ topic.toList ++ miner.toList ++ acc.commitment.toList ++ u64Bytes acc.k

def receiptBytes (topic : Topic) (hash : Particle) (epoch : UInt64) : List UInt8 :=
  strBytes "rcpt" ++ topic.toList ++ hash.toList ++ u64Bytes epoch

def contentId (hemera : Hemera) : SettleMsg → Particle
  | claimAnnounce _ claimId _ _ => claimId
  | selfAcc topic miner acc => hemera.hash (selfAccBytes topic miner acc)
  | receiptHash topic hash epoch => hemera.hash (receiptBytes topic hash epoch)

def topic : SettleMsg → Topic
  | claimAnnounce topic _ _ _ => topic
  | selfAcc topic _ _ => topic
  | receiptHash topic _ _ => topic

end SettleMsg

/-- What a peer holds: its inbox, the content ids it has seen, and the topics it
subscribed to; no topic at all means every topic. -/
structure PeerState where
  inbox : List SettleMsg
  seen : Std.ExtTreeSet Particle
  subs : Std.ExtTreeSet Topic

namespace PeerState

def default : PeerState := { inbox := [], seen := ∅, subs := ∅ }

/-- The topic filter of both transports. -/
def accepts (peer : PeerState) (topic : Topic) : Bool := peer.subs.isEmpty || peer.subs.contains topic

/-- `if seen.insert(cid) { inbox.push_back(msg) }`, and whether the message was new. -/
def deliver (hemera : Hemera) (peer : PeerState) (msg : SettleMsg) : PeerState × Bool :=
  let cid := msg.contentId hemera
  if peer.seen.contains cid then (peer, false)
  else ({ peer with inbox := peer.inbox ++ [msg], seen := peer.seen.insert cid }, true)

def subscribe (peer : PeerState) (topic : Topic) : PeerState :=
  { peer with subs := peer.subs.insert topic }

def drain (peer : PeerState) : List SettleMsg × PeerState := (peer.inbox, { peer with inbox := [] })

/-- The second half of a collector: what it did not want goes back. -/
def requeue (peer : PeerState) (rest : List SettleMsg) : PeerState :=
  { peer with inbox := peer.inbox ++ rest }

@[simp] theorem drain_fst (peer : PeerState) : peer.drain.1 = peer.inbox := rfl

@[simp] theorem drain_inbox (peer : PeerState) : peer.drain.2.inbox = [] := rfl

@[simp] theorem drain_seen (peer : PeerState) : peer.drain.2.seen = peer.seen := rfl

@[simp] theorem requeue_inbox (peer : PeerState) (rest : List SettleMsg) :
    (peer.requeue rest).inbox = peer.inbox ++ rest := rfl

@[simp] theorem requeue_seen (peer : PeerState) (rest : List SettleMsg) :
    (peer.requeue rest).seen = peer.seen := rfl

theorem deliver_known {hemera : Hemera} {peer : PeerState} {msg : SettleMsg}
    (known : peer.seen.contains (msg.contentId hemera) = true) :
    peer.deliver hemera msg = (peer, false) := if_pos known

theorem deliver_new {hemera : Hemera} {peer : PeerState} {msg : SettleMsg}
    (new : peer.seen.contains (msg.contentId hemera) = false) :
    peer.deliver hemera msg =
      ({ peer with inbox := peer.inbox ++ [msg], seen := peer.seen.insert (msg.contentId hemera) },
        true) :=
  if_neg (by simp [new])

theorem deliver_seen (hemera : Hemera) (peer : PeerState) (msg : SettleMsg) :
    (peer.deliver hemera msg).1.seen.contains (msg.contentId hemera) = true := by
  cases known : peer.seen.contains (msg.contentId hemera) with
  | true => rwa [deliver_known known]
  | false =>
      rw [deliver_new known]
      exact Std.ExtTreeSet.contains_insert_self

theorem deliver_keeps (hemera : Hemera) {peer : PeerState} {cid : Particle} (msg : SettleMsg)
    (seen : cid ∈ peer.seen) : cid ∈ (peer.deliver hemera msg).1.seen := by
  cases known : peer.seen.contains (msg.contentId hemera) with
  | true => rwa [deliver_known known]
  | false =>
      rw [deliver_new known]
      exact Std.ExtTreeSet.mem_insert.mpr (.inr seen)

theorem deliver_subs {hemera : Hemera} (peer : PeerState) (msg : SettleMsg) :
    (peer.deliver hemera msg).1.subs = peer.subs := by
  cases known : peer.seen.contains (msg.contentId hemera) with
  | true => rw [deliver_known known]
  | false => rw [deliver_new known]

theorem deliver_deliver {hemera : Hemera} (peer : PeerState) (msg : SettleMsg) :
    ((peer.deliver hemera msg).1.deliver hemera msg).1 = (peer.deliver hemera msg).1 := by
  rw [deliver_known (deliver_seen hemera peer msg)]

end PeerState

section Collecting

/-- The loop of the collectors: the payloads of the messages that match, and the rest. -/
def collect (wanted : SettleMsg → Option α) (msgs : List SettleMsg) : List α × List SettleMsg :=
  msgs.foldl (fun (found, rest) msg =>
    match wanted msg with
    | some value => (found ++ [value], rest)
    | none => (found, rest ++ [msg])) ([], [])

def selfAccFor (topic : Topic) : SettleMsg → Option ClusterAcc
  | .selfAcc t _ acc => if t = topic then some acc else none
  | _ => none

def claimFor (topic : Topic) : SettleMsg → Option RewardClaim
  | .claimAnnounce t _ _ claim => if t = topic then some claim else none
  | _ => none

theorem collect_eq (wanted : SettleMsg → Option α) (msgs : List SettleMsg) :
    collect wanted msgs = (msgs.filterMap wanted, msgs.filter fun msg => (wanted msg).isNone) := by
  induction msgs using List.reverseRecOn with
  | nil => rfl
  | append_singleton msgs msg ih =>
      rw [collect, List.foldl_append, List.foldl_cons, List.foldl_nil, List.filterMap_append,
        List.filter_append]
      rw [collect] at ih
      rw [ih]
      cases found : wanted msg <;> simp [found]

end Collecting

end Foculus.Gossip

import Foculus.Gossip.Message

namespace Foculus.Gossip

open Settlement

/-! # The in-process mesh (`src/gossip.rs`) -/

structure SettleMesh where
  peers : Std.ExtTreeMap Particle PeerState
  fanout : Nat
  fanout_ge : 2 ≤ fanout

namespace SettleMesh

def new (fanout : Nat) : SettleMesh where
  peers := ∅
  fanout := max fanout 2
  fanout_ge := Nat.le_max_right fanout 2

def join (mesh : SettleMesh) (peer : Particle) : SettleMesh :=
  { mesh with peers := mesh.peers.insertIfNew peer PeerState.default }

/-- `if let Some(p) = self.peers.get_mut(peer)`. -/
def update (mesh : SettleMesh) (peer : Particle) (change : PeerState → PeerState) : SettleMesh :=
  { mesh with peers := mesh.peers.modify peer change }

def subscribe (mesh : SettleMesh) (peer : Particle) (topic : Topic) : SettleMesh :=
  mesh.update peer fun state => state.subscribe topic

/-- A message handed to one peer, counted where it is new there. -/
def deliverTo (hemera : Hemera) (msg : SettleMsg) :
    SettleMesh × Nat → Particle → SettleMesh × Nat
  | (mesh, delivered), peer =>
      (mesh.update peer fun state => (state.deliver hemera msg).1,
        match mesh.peers[peer]? with
        | some state => if (state.deliver hemera msg).2 then delivered + 1 else delivered
        | none => delivered)

def acceptsAt (mesh : SettleMesh) (topic : Topic) (peer : Particle) : Bool :=
  match mesh.peers[peer]? with
  | some state => state.accepts topic
  | none => false

/-- The first `fanout` of the others, in the order of their ids. -/
def targets (mesh : SettleMesh) («from» : Particle) (topic : Topic) : List Particle :=
  ((mesh.peers.keys.filter fun id => id ≠ «from»).filter (mesh.acceptsAt topic)).take mesh.fanout

def publish (hemera : Hemera) (mesh : SettleMesh) («from» : Particle) (msg : SettleMsg) :
    SettleMesh × Nat :=
  let here := deliverTo hemera msg (mesh, 0) «from»
  (here.1.targets «from» msg.topic).foldl (deliverTo hemera msg) here

def drain (mesh : SettleMesh) (peer : Particle) : List SettleMsg × SettleMesh :=
  match mesh.peers[peer]? with
  | some state => (state.drain.1, mesh.update peer fun state => state.drain.2)
  | none => ([], mesh)

def peerAccs (mesh : SettleMesh) (peer : Particle) (topic : Topic) :
    List ClusterAcc × SettleMesh :=
  let (msgs, drained) := mesh.drain peer
  let (accs, rest) := collect (selfAccFor topic) msgs
  (accs, drained.update peer fun state => state.requeue rest)

def peerClaims (mesh : SettleMesh) (peer : Particle) (topic : Topic) :
    List RewardClaim × SettleMesh :=
  let (msgs, drained) := mesh.drain peer
  let (claims, rest) := collect (claimFor topic) msgs
  (claims, drained.update peer fun state => state.requeue rest)

def peerCount (mesh : SettleMesh) : Nat := mesh.peers.size

variable {hemera : Hemera} {mesh : SettleMesh}

theorem update_peer (mesh : SettleMesh) (peer other : Particle) (change : PeerState → PeerState) :
    (mesh.update peer change).peers[other]? =
      if peer = other then mesh.peers[other]?.map change else mesh.peers[other]? := by
  rw [update, Std.ExtTreeMap.getElem?_modify]
  by_cases same : peer = other
  · rw [if_pos (Std.compare_eq_iff_eq.mpr same), if_pos same, same]
  · rw [if_neg (fun equal => same (Std.compare_eq_iff_eq.mp equal)), if_neg same]

theorem update_keys (mesh : SettleMesh) (peer : Particle) (change : PeerState → PeerState) :
    (mesh.update peer change).peers.keys = mesh.peers.keys := by
  have irrefl : Std.Irrefl fun left right : Particle => compare left right = .lt :=
    ⟨fun id before => by simp at before⟩
  have antisymm : Std.Antisymm fun left right : Particle => compare left right = .lt :=
    ⟨fun left right before after => by
      have opposite := Std.OrientedCmp.gt_of_lt after
      rw [before] at opposite
      cases opposite⟩
  refine Std.ExtTreeMap.ordered_keys.eq_of_mem_iff Std.ExtTreeMap.ordered_keys fun id => ?_
  rw [Std.ExtTreeMap.mem_keys, Std.ExtTreeMap.mem_keys, update, Std.ExtTreeMap.mem_modify]

theorem deliverTo_peer (handed : SettleMesh × Nat) (msg : SettleMsg) (target peer : Particle) :
    (deliverTo hemera msg handed target).1.peers[peer]? =
      if target = peer then handed.1.peers[peer]?.map fun state => (state.deliver hemera msg).1
      else handed.1.peers[peer]? :=
  update_peer handed.1 target peer _

theorem deliverAll_peer (handed : SettleMesh × Nat) (msg : SettleMsg) (targets : List Particle)
    (peer : Particle) :
    (targets.foldl (deliverTo hemera msg) handed).1.peers[peer]? =
      handed.1.peers[peer]?.map fun state =>
        if peer ∈ targets then (state.deliver hemera msg).1 else state := by
  induction targets generalizing handed with
  | nil => simp
  | cons target targets ih =>
      rw [List.foldl_cons, ih, deliverTo_peer]
      by_cases same : target = peer
      · simp [same, Option.map_map, Function.comp_def, PeerState.deliver_deliver]
      · simp [same, Ne.symm same]

theorem update_acceptsAt {change : PeerState → PeerState} {peer : Particle}
    (frame : ∀ state, (change state).subs = state.subs) (topic : Topic) (other : Particle) :
    (mesh.update peer change).acceptsAt topic other = mesh.acceptsAt topic other := by
  rw [acceptsAt, acceptsAt, update_peer]
  by_cases same : peer = other
  · rw [if_pos same]
    cases mesh.peers[other]? with
    | none => rfl
    | some state => simp [PeerState.accepts, frame]
  · rw [if_neg same]

/-- Who can be a target does not change when the peers' subscriptions do not. -/
theorem update_targets {change : PeerState → PeerState} {peer : Particle}
    (frame : ∀ state, (change state).subs = state.subs) («from» : Particle) (topic : Topic) :
    (mesh.update peer change).targets «from» topic = mesh.targets «from» topic := by
  have accepts : (mesh.update peer change).acceptsAt topic = mesh.acceptsAt topic :=
    funext fun other => update_acceptsAt frame topic other
  rw [targets, targets, update_keys, accepts]
  rfl

/-- What a publication does to one peer. -/
theorem publish_peer (mesh : SettleMesh) («from» : Particle) (msg : SettleMsg) (peer : Particle) :
    (mesh.publish hemera «from» msg).1.peers[peer]? = mesh.peers[peer]?.map fun state =>
      if peer = «from» ∨ peer ∈ mesh.targets «from» msg.topic then (state.deliver hemera msg).1
      else state := by
  rw [publish, deliverAll_peer, deliverTo_peer]
  have same : (deliverTo hemera msg (mesh, 0) «from»).1.targets «from» msg.topic =
      mesh.targets «from» msg.topic :=
    update_targets (fun state => state.deliver_subs msg) «from» msg.topic
  rw [same]
  by_cases own : «from» = peer
  · subst own
    simp [Option.map_map, Function.comp_def, PeerState.deliver_deliver]
  · simp [own, Ne.symm own]

end SettleMesh

end Foculus.Gossip

import Foculus.Gossip.Mesh

namespace Foculus.Gossip

/-! # Whom a message reaches -/

inductive MeshOp where
  | join (peer : Particle)
  | subscribe (peer : Particle) (topic : Topic)
  | publish («from» : Particle) (msg : SettleMsg)
  | drain (peer : Particle)
  | peerAccs (peer : Particle) (topic : Topic)
  | peerClaims (peer : Particle) (topic : Topic)

/-- Nobody joins, and no subscription changes. -/
def MeshOp.Steady : MeshOp → Prop
  | .join _ => False
  | .subscribe _ _ => False
  | _ => True

namespace SettleMesh

def apply (hemera : Hemera) (mesh : SettleMesh) : MeshOp → SettleMesh
  | .join peer => mesh.join peer
  | .subscribe peer topic => mesh.subscribe peer topic
  | .publish «from» msg => (mesh.publish hemera «from» msg).1
  | .drain peer => (mesh.drain peer).2
  | .peerAccs peer topic => (mesh.peerAccs peer topic).2
  | .peerClaims peer topic => (mesh.peerClaims peer topic).2

def run (hemera : Hemera) (mesh : SettleMesh) (ops : List MeshOp) : SettleMesh :=
  ops.foldl (apply hemera) mesh

/-- The peers that take messages of a topic, in the order of their ids. -/
def eligible (mesh : SettleMesh) (topic : Topic) : List Particle :=
  mesh.peers.keys.filter (mesh.acceptsAt topic)

def HasSeen (mesh : SettleMesh) (cid peer : Particle) : Prop :=
  ∃ state, mesh.peers[peer]? = some state ∧ cid ∈ state.seen

/-- The peer has published the message, being a peer at the time. -/
def Republished (hemera : Hemera) (mesh : SettleMesh) (msg : SettleMsg) (ops : List MeshOp)
    (peer : Particle) : Prop :=
  ∃ before after, ops = before ++ .publish peer msg :: after ∧ peer ∈ (mesh.run hemera before).peers

/-- Every peer that has seen the message has published it. -/
def Saturated (hemera : Hemera) (mesh : SettleMesh) (msg : SettleMsg) (ops : List MeshOp) : Prop :=
  ∀ peer, (mesh.run hemera ops).HasSeen (msg.contentId hemera) peer →
    Republished hemera mesh msg ops peer

def Covered (hemera : Hemera) (mesh : SettleMesh) (msg : SettleMsg) : Prop :=
  ∀ peer ∈ mesh.eligible msg.topic, mesh.HasSeen (msg.contentId hemera) peer

/-- The peer takes messages of the topic, and fewer than `fanout` of the others that do
come before it. -/
def Near (mesh : SettleMesh) («from» : Particle) (topic : Topic) (peer : Particle) : Prop :=
  peer ∈ mesh.eligible topic ∧
    ((mesh.eligible topic).filter fun id => id ≠ «from» ∧ compare id peer = .lt).length < mesh.fanout

/-- At a publication of the message the peer was the one that published it, or near. -/
def Offered (hemera : Hemera) (mesh : SettleMesh) (msg : SettleMsg) (ops : List MeshOp)
    (peer : Particle) : Prop :=
  Republished hemera mesh msg ops peer ∨
    ∃ before «from» after, ops = before ++ .publish «from» msg :: after ∧
      (mesh.run hemera before).Near «from» msg.topic peer

section Targets

variable {ids : List Particle} {«from» : Particle} {count : Nat}

theorem take_subset_others {id : Particle} (member : id ∈ ids.take count) :
    id = «from» ∨ id ∈ (ids.filter fun id => id ≠ «from»).take count := by
  induction ids generalizing count with
  | nil => simp at member
  | cons first ids ih =>
      cases count with
      | zero => simp at member
      | succ count =>
          rw [List.take_succ_cons, List.mem_cons] at member
          by_cases own : first = «from»
          · rw [List.filter_cons_of_neg (by simpa using own)]
            rcases member with same | member
            · exact .inl (same.trans own)
            · exact (ih member).imp_right fun inside =>
                List.take_subset_take_left _ (Nat.le_succ count) inside
          · rw [List.filter_cons_of_pos (by simpa using own), List.take_succ_cons, List.mem_cons]
            rcases member with same | member
            · exact .inr (.inl same)
            · exact (ih member).imp_right .inr

/-- A holder among the first `count` makes room for one more. -/
theorem take_succ_subset_others (holder : «from» ∈ ids.take count) {id : Particle}
    (member : id ∈ ids.take (count + 1)) :
    id = «from» ∨ id ∈ (ids.filter fun id => id ≠ «from»).take count := by
  induction ids generalizing count with
  | nil => simp at member
  | cons first ids ih =>
      cases count with
      | zero => simp at holder
      | succ count =>
          rw [List.take_succ_cons, List.mem_cons] at member holder
          by_cases own : first = «from»
          · rw [List.filter_cons_of_neg (by simpa using own)]
            rcases member with same | member
            · exact .inl (same.trans own)
            · exact take_subset_others member
          · rw [List.filter_cons_of_pos (by simpa using own), List.take_succ_cons, List.mem_cons]
            rcases member with same | member
            · exact .inr (.inl same)
            · have inner := holder.resolve_left fun same => own same.symm
              exact (ih inner member).imp_right .inr

/-- What few precede in an ordered list is among the first. -/
theorem mem_take_of_few {id : Particle}
    (ordered : ids.Pairwise fun left right => compare left right = .lt) (member : id ∈ ids)
    (few : (ids.filter fun other => compare other id = .lt).length < count) :
    id ∈ ids.take count := by
  induction ids generalizing count with
  | nil => cases member
  | cons first ids ih =>
      obtain ⟨before, ordered⟩ := List.pairwise_cons.mp ordered
      cases count with
      | zero => cases few
      | succ count =>
          rw [List.take_succ_cons, List.mem_cons]
          rcases List.mem_cons.mp member with same | later
          · exact .inl same
          · rw [List.filter_cons_of_pos (by simpa using before id later), List.length_cons] at few
            exact .inr (ih ordered later (Nat.lt_of_succ_lt_succ few))

theorem targets_eq (mesh : SettleMesh) («from» : Particle) (topic : Topic) :
    mesh.targets «from» topic =
      ((mesh.eligible topic).filter fun id => id ≠ «from»).take mesh.fanout := by
  rw [targets, eligible, List.filter_filter, List.filter_filter]
  congr 2
  funext id
  rw [Bool.and_comm]

theorem eligible_ordered (mesh : SettleMesh) (topic : Topic) :
    (mesh.eligible topic).Pairwise fun left right => compare left right = .lt :=
  Std.ExtTreeMap.ordered_keys.sublist List.filter_sublist

theorem Near.reached {mesh : SettleMesh} {topic : Topic} {peer : Particle}
    (near : mesh.Near «from» topic peer) : peer = «from» ∨ peer ∈ mesh.targets «from» topic := by
  obtain ⟨member, few⟩ := near
  by_cases own : peer = «from»
  · exact .inl own
  · right
    rw [targets_eq]
    refine mem_take_of_few ((mesh.eligible_ordered topic).sublist List.filter_sublist)
      (List.mem_filter.mpr ⟨member, by simpa using own⟩) ?_
    rw [List.filter_filter]
    refine Nat.lt_of_le_of_lt (Nat.le_of_eq ?_) few
    congr 2
    funext id
    rw [Bool.decide_and, Bool.and_comm]

end Targets

/-- The same fanout, nobody gone and nothing unseen. -/
structure Grows (mesh after : SettleMesh) : Prop where
  fanout : after.fanout = mesh.fanout
  joined : ∀ {peer : Particle}, peer ∈ mesh.peers → peer ∈ after.peers
  seen : ∀ {cid peer : Particle}, mesh.HasSeen cid peer → after.HasSeen cid peer

/-- The same peers with the same subscriptions, and nothing unseen. -/
structure Extends (mesh after : SettleMesh) : Prop where
  fanout : after.fanout = mesh.fanout
  keys : after.peers.keys = mesh.peers.keys
  accepts : ∀ topic, after.acceptsAt topic = mesh.acceptsAt topic
  seen : ∀ {cid peer : Particle}, mesh.HasSeen cid peer → after.HasSeen cid peer

namespace Extends

variable {hemera : Hemera} {mesh middle after : SettleMesh}

protected theorem refl (mesh : SettleMesh) : Extends mesh mesh :=
  ⟨rfl, rfl, fun _ => rfl, id⟩

protected theorem trans (first : Extends mesh middle) (second : Extends middle after) :
    Extends mesh after :=
  ⟨second.fanout.trans first.fanout, second.keys.trans first.keys,
    fun topic => (second.accepts topic).trans (first.accepts topic),
    fun seen => second.seen (first.seen seen)⟩

theorem update (mesh : SettleMesh) (peer : Particle) {change : PeerState → PeerState}
    (subs : ∀ state, (change state).subs = state.subs)
    (seen : ∀ (state : PeerState) (cid : Particle), cid ∈ state.seen → cid ∈ (change state).seen) :
    Extends mesh (mesh.update peer change) where
  fanout := rfl
  keys := update_keys mesh peer change
  accepts topic := funext fun other => update_acceptsAt subs topic other
  seen := by
    intro cid other known
    obtain ⟨state, found, member⟩ := known
    by_cases same : peer = other
    · exact ⟨change state, by rw [update_peer, if_pos same, found]; rfl, seen state cid member⟩
    · exact ⟨state, by rw [update_peer, if_neg same, found], member⟩

theorem eligible (grown : Extends mesh after) (topic : Topic) :
    after.eligible topic = mesh.eligible topic := by
  rw [SettleMesh.eligible, SettleMesh.eligible, grown.keys, grown.accepts]

theorem targets (grown : Extends mesh after) («from» : Particle) (topic : Topic) :
    after.targets «from» topic = mesh.targets «from» topic := by
  rw [targets_eq, targets_eq, grown.eligible, grown.fanout]

theorem deliverTo (handed : SettleMesh × Nat) (msg : SettleMsg) (peer : Particle) :
    Extends handed.1 (deliverTo hemera msg handed peer).1 :=
  update handed.1 peer (fun state => state.deliver_subs msg)
    fun _ _ seen => PeerState.deliver_keeps hemera msg seen

theorem publish (mesh : SettleMesh) («from» : Particle) (msg : SettleMsg) :
    Extends mesh (mesh.publish hemera «from» msg).1 := by
  have all (targets : List Particle) (handed : SettleMesh × Nat) :
      Extends handed.1 (targets.foldl (SettleMesh.deliverTo hemera msg) handed).1 := by
    induction targets generalizing handed with
    | nil => exact .refl handed.1
    | cons target targets ih => exact (deliverTo handed msg target).trans (ih _)
  exact (deliverTo (mesh, 0) msg «from»).trans (all _ _)

theorem drain (mesh : SettleMesh) (peer : Particle) : Extends mesh (mesh.drain peer).2 := by
  rw [SettleMesh.drain]
  cases mesh.peers[peer]? with
  | none => exact .refl mesh
  | some state => exact update mesh peer (fun _ => rfl) fun _ _ seen => seen

theorem requeue (mesh : SettleMesh) (peer : Particle) (rest : List SettleMsg) :
    Extends mesh (mesh.update peer fun state => state.requeue rest) :=
  update mesh peer (fun _ => rfl) fun _ _ seen => seen

theorem apply (mesh : SettleMesh) (op : MeshOp) (steady : op.Steady) :
    Extends mesh (mesh.apply hemera op) := by
  cases op with
  | join peer => exact steady.elim
  | subscribe peer topic => exact steady.elim
  | publish «from» msg => exact publish mesh «from» msg
  | drain peer => exact drain mesh peer
  | peerAccs peer topic => exact (drain mesh peer).trans (requeue _ peer _)
  | peerClaims peer topic => exact (drain mesh peer).trans (requeue _ peer _)

theorem run (mesh : SettleMesh) {ops : List MeshOp} (steady : ∀ op ∈ ops, op.Steady) :
    Extends mesh (mesh.run hemera ops) := by
  induction ops generalizing mesh with
  | nil => exact .refl mesh
  | cons op ops ih =>
      exact (apply mesh op (steady op List.mem_cons_self)).trans
        (ih _ fun other member => steady other (List.mem_cons_of_mem _ member))

theorem grows (grown : Extends mesh after) : Grows mesh after where
  fanout := grown.fanout
  joined joined := by
    rw [← Std.ExtTreeMap.mem_keys] at joined ⊢
    rwa [grown.keys]
  seen := grown.seen

end Extends

namespace Grows

variable {hemera : Hemera} {mesh : SettleMesh}

theorem join (mesh : SettleMesh) (peer : Particle) : Grows mesh (mesh.join peer) where
  fanout := rfl
  joined joined := Std.ExtTreeMap.mem_insertIfNew.mpr (.inr joined)
  seen := by
    rintro cid other ⟨state, found, member⟩
    refine ⟨state, ?_, member⟩
    rw [SettleMesh.join, Std.ExtTreeMap.getElem?_insertIfNew, if_neg, found]
    rintro ⟨same, absent⟩
    rw [Std.LawfulEqCmp.eq_of_compare same, Std.ExtTreeMap.mem_iff_isSome_getElem?, found] at absent
    exact absent rfl

theorem subscribe (mesh : SettleMesh) (peer : Particle) (topic : Topic) :
    Grows mesh (mesh.subscribe peer topic) where
  fanout := rfl
  joined joined := by
    rw [← Std.ExtTreeMap.mem_keys] at joined ⊢
    rwa [SettleMesh.subscribe, update_keys]
  seen := by
    rintro cid other ⟨state, found, member⟩
    rw [HasSeen, SettleMesh.subscribe, update_peer, found]
    split_ifs
    · exact ⟨state.subscribe topic, rfl, member⟩
    · exact ⟨state, rfl, member⟩

theorem run (mesh : SettleMesh) (ops : List MeshOp) : Grows mesh (mesh.run hemera ops) := by
  induction ops generalizing mesh with
  | nil => exact (Extends.refl mesh).grows
  | cons op ops ih =>
      have first : Grows mesh (mesh.apply hemera op) := by
        cases op with
        | join peer => exact join mesh peer
        | subscribe peer topic => exact subscribe mesh peer topic
        | publish «from» msg => exact (Extends.publish mesh «from» msg).grows
        | drain peer => exact (Extends.drain mesh peer).grows
        | peerAccs peer topic => exact (Extends.apply mesh (.peerAccs peer topic) trivial).grows
        | peerClaims peer topic => exact (Extends.apply mesh (.peerClaims peer topic) trivial).grows
      have rest := ih (mesh.apply hemera op)
      exact ⟨rest.fanout.trans first.fanout, fun joined => rest.joined (first.joined joined),
        fun seen => rest.seen (first.seen seen)⟩

end Grows

section Runs

variable {hemera : Hemera} {mesh : SettleMesh} {msg : SettleMsg} {ops : List MeshOp}
  {peer «from» : Particle}

theorem eligible_joined {topic : Topic} (member : peer ∈ mesh.eligible topic) :
    peer ∈ mesh.peers :=
  Std.ExtTreeMap.mem_keys.mp (List.mem_filter.mp member).1

theorem publish_reaches (joined : peer ∈ mesh.peers)
    (reached : peer = «from» ∨ peer ∈ mesh.targets «from» msg.topic) :
    (mesh.publish hemera «from» msg).1.HasSeen (msg.contentId hemera) peer := by
  rw [Std.ExtTreeMap.mem_iff_isSome_getElem?, Option.isSome_iff_exists] at joined
  obtain ⟨state, found⟩ := joined
  refine ⟨(state.deliver hemera msg).1, ?_, Std.ExtTreeSet.mem_iff_contains.mpr
    (PeerState.deliver_seen hemera state msg)⟩
  rw [publish_peer, found, Option.map_some, if_pos reached]

/-- What a publication has reached has seen the message ever after. -/
theorem run_reaches {before after : List MeshOp}
    (joined : peer ∈ (mesh.run hemera before).peers)
    (reached : peer = «from» ∨ peer ∈ (mesh.run hemera before).targets «from» msg.topic) :
    (mesh.run hemera (before ++ .publish «from» msg :: after)).HasSeen (msg.contentId hemera) peer := by
  have seen : ((mesh.run hemera before).publish hemera «from» msg).1.HasSeen (msg.contentId hemera)
      peer := publish_reaches joined reached
  rw [run, List.foldl_append]
  exact (Grows.run _ after).seen seen

theorem Offered.hasSeen (offered : Offered hemera mesh msg ops peer) :
    (mesh.run hemera ops).HasSeen (msg.contentId hemera) peer := by
  rcases offered with ⟨before, after, rfl, joined⟩ | ⟨before, «from», after, rfl, near⟩
  · exact run_reaches joined (.inl rfl)
  · exact run_reaches (eligible_joined near.1) near.reached

/-- While nobody joins and no subscription changes, every publisher pushes to the same
first peers. -/
theorem covered_iff_steady (steady : ∀ op ∈ ops, op.Steady)
    (saturated : ∀ peer, (mesh.run hemera ops).HasSeen (msg.contentId hemera) peer →
      .publish peer msg ∈ ops) :
    Covered hemera (mesh.run hemera ops) msg ↔
      (mesh.eligible msg.topic = [] ∨ ∃ peer, .publish peer msg ∈ ops) ∧
        ∀ peer ∈ (mesh.eligible msg.topic).drop (mesh.fanout + 1), .publish peer msg ∈ ops := by
  have grown : Extends mesh (mesh.run hemera ops) := .run mesh steady
  have reaches {«from» peer : Particle} (published : .publish «from» msg ∈ ops)
      (member : peer ∈ mesh.eligible msg.topic)
      (reached : peer = «from» ∨ peer ∈ mesh.targets «from» msg.topic) :
      (mesh.run hemera ops).HasSeen (msg.contentId hemera) peer := by
    obtain ⟨before, after, rfl⟩ := List.append_of_mem published
    have grown : Extends mesh (mesh.run hemera before) :=
      .run mesh fun op early => steady op (List.mem_append_left _ early)
    exact run_reaches (eligible_joined (grown.eligible msg.topic ▸ member))
      (grown.targets «from» msg.topic ▸ reached)
  rw [Covered, grown.eligible]
  constructor
  · intro covered
    refine ⟨?_, fun peer member => saturated peer (covered peer (List.mem_of_mem_drop member))⟩
    cases listed : mesh.eligible msg.topic with
    | nil => exact .inl rfl
    | cons first rest =>
        exact .inr ⟨first, saturated first (covered first (by simp [listed]))⟩
  · intro condition peer member
    obtain ⟨published, others⟩ := condition
    obtain ⟨source, published⟩ := published.resolve_left (List.ne_nil_of_mem member)
    obtain ⟨first, rest, listed⟩ := List.exists_cons_of_ne_nil (List.ne_nil_of_mem member)
    have leads : first ∈ (mesh.eligible msg.topic).take mesh.fanout := by
      obtain ⟨fanout, positive⟩ := Nat.exists_eq_add_of_le mesh.fanout_ge
      simp [listed, positive, Nat.add_comm 2]
    have firstMember : first ∈ mesh.eligible msg.topic := List.mem_of_mem_take leads
    -- the first peer is a target of whoever published, so it has published too
    have firstSeen : (mesh.run hemera ops).HasSeen (msg.contentId hemera) first :=
      reaches published firstMember
        ((take_subset_others leads).imp_right fun inside => by rwa [targets_eq])
    have firstPublished := saturated first firstSeen
    rw [← List.take_append_drop (mesh.fanout + 1) (mesh.eligible msg.topic), List.mem_append] at member
    rcases member with early | late
    · refine reaches firstPublished (List.mem_of_mem_take early) ?_
      exact (take_succ_subset_others leads early).imp_right fun inside => by rwa [targets_eq]
    · exact reaches (others peer late) (List.mem_of_mem_drop late) (.inl rfl)

/-- Where everyone who has seen a message has published it, it has reached everyone
exactly if everyone has published it or was near at a publication.  If nobody joins and
no subscription changes once it is first published, those that are no one's targets have
to publish it on their own. -/
theorem covered_iff (saturated : Saturated hemera mesh msg ops) :
    (Covered hemera (mesh.run hemera ops) msg ↔
      ∀ peer ∈ (mesh.run hemera ops).eligible msg.topic, Offered hemera mesh msg ops peer) ∧
    ∀ early late, ops = early ++ late → (∀ peer, .publish peer msg ∉ early) →
      (∀ op ∈ late, op.Steady) →
      (Covered hemera (mesh.run hemera ops) msg ↔
        ((mesh.run hemera early).eligible msg.topic = [] ∨ ∃ peer, .publish peer msg ∈ late) ∧
          ∀ peer ∈ ((mesh.run hemera early).eligible msg.topic).drop (mesh.fanout + 1),
            .publish peer msg ∈ late) := by
  constructor
  · constructor
    · exact fun covered peer member => .inl (saturated peer (covered peer member))
    · exact fun offered peer member => (offered peer member).hasSeen
  · rintro early late rfl unpublished steady
    have split : mesh.run hemera (early ++ late) = (mesh.run hemera early).run hemera late :=
      List.foldl_append
    have width : (mesh.run hemera early).fanout = mesh.fanout := (Grows.run mesh early).fanout
    rw [split, ← width]
    refine covered_iff_steady steady fun peer seen => ?_
    obtain ⟨before, after, same, -⟩ := saturated peer (split ▸ seen)
    have published : .publish peer msg ∈ early ++ late := by simp [same]
    exact (List.mem_append.mp published).resolve_left (unpublished peer)

end Runs

section Samples

def meshIds : List Particle := (List.range 4).map fun id => Particle.padded [UInt8.ofNat (id + 1)]

def sampleReceipt : SettleMsg := .receiptHash (Particle.padded [9]) (Particle.padded [8]) 3

def joins : List MeshOp := meshIds.map .join

/-- Four peers join, and then the first `count` of them publish what they have seen. -/
def publications (count : Nat) : List MeshOp :=
  joins ++ (meshIds.take count).map fun id => .publish id sampleReceipt

def sampleMesh (count : Nat) : SettleMesh := (new 2).run Hemera.truncating (publications count)

def sampleSeen (peer : Particle) : Bool :=
  match (sampleMesh 3).peers[peer]? with
  | some state => state.seen.contains (sampleReceipt.contentId Hemera.truncating)
  | none => false

theorem sample_outcome :
    ((new 2).run Hemera.truncating joins).peers.keys = meshIds ∧
      (sampleMesh 3).eligible sampleReceipt.topic = meshIds ∧
      meshIds.filter sampleSeen = meshIds.take 3 := by decide +kernel

theorem publications_republished (count : Nat) {peer : Particle} (member : peer ∈ meshIds.take count) :
    Republished Hemera.truncating (new 2) sampleReceipt (publications count) peer := by
  have published : .publish peer sampleReceipt ∈
      (meshIds.take count).map fun id => MeshOp.publish id sampleReceipt := List.mem_map_of_mem member
  obtain ⟨before, after, split⟩ := List.append_of_mem published
  refine ⟨joins ++ before, after, by rw [publications, split, List.append_assoc], ?_⟩
  rw [run, List.foldl_append]
  refine (Grows.run _ before).joined ?_
  rw [← Std.ExtTreeMap.mem_keys]
  exact sample_outcome.1 ▸ List.mem_of_mem_take member

theorem publications_joined (count : Nat) : (sampleMesh count).peers.keys = meshIds := by
  have steady : ∀ op ∈ (meshIds.take count).map fun id => MeshOp.publish id sampleReceipt,
      op.Steady := by
    intro op member
    obtain ⟨id, -, rfl⟩ := List.mem_map.mp member
    trivial
  have grown : Extends ((new 2).run Hemera.truncating joins) (sampleMesh count) := by
    rw [sampleMesh, publications, run, run, List.foldl_append]
    exact .run _ steady
  rw [grown.keys, sample_outcome.1]

theorem HasSeen.joined (count : Nat) {cid peer : Particle} (seen : (sampleMesh count).HasSeen cid peer) :
    peer ∈ meshIds := by
  obtain ⟨state, found, -⟩ := seen
  rw [← publications_joined count, Std.ExtTreeMap.mem_keys,
    Std.ExtTreeMap.mem_iff_isSome_getElem?, found]
  rfl

theorem sampleSeen_of_hasSeen {peer : Particle}
    (seen : (sampleMesh 3).HasSeen (sampleReceipt.contentId Hemera.truncating) peer) :
    peer ∈ meshIds.take 3 := by
  have joined := seen.joined 3
  obtain ⟨state, found, member⟩ := seen
  rw [← sample_outcome.2.2, List.mem_filter, sampleSeen, found]
  exact ⟨joined, Std.ExtTreeSet.mem_iff_contains.mp member⟩

/-- All four publish. -/
theorem covered_iff_all_publish :
    Saturated Hemera.truncating (new 2) sampleReceipt (publications 4) ∧
      Covered Hemera.truncating (sampleMesh 4) sampleReceipt := by
  have saturated : Saturated Hemera.truncating (new 2) sampleReceipt (publications 4) :=
    fun peer seen => publications_republished 4 (seen.joined 4)
  refine ⟨saturated, (covered_iff saturated).1.mpr fun peer member => .inl ?_⟩
  refine publications_republished 4 ?_
  have joined : peer ∈ (sampleMesh 4).peers := eligible_joined member
  rwa [← Std.ExtTreeMap.mem_keys, publications_joined 4] at joined

theorem fourth_peer_not_covered :
    Saturated Hemera.truncating (new 2) sampleReceipt (publications 3) ∧
      ¬ Covered Hemera.truncating (sampleMesh 3) sampleReceipt := by
  refine ⟨fun peer seen => publications_republished 3 (sampleSeen_of_hasSeen seen), fun covered => ?_⟩
  have member : Particle.padded [4] ∈ (sampleMesh 3).eligible sampleReceipt.topic := by
    rw [sample_outcome.2.1]
    decide
  exact absurd (sampleSeen_of_hasSeen (covered _ member)) (by decide)

end Samples

end SettleMesh

end Foculus.Gossip

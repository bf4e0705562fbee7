import Foculus.Live.Certificates

namespace Foculus.Live

open Data Settlement Epoch

/-! Which links of its own a node keeps.

`link` names its signal by the size of the log and one byte of the neuron, and hands
it to `ingest_signal`, which takes a known id for a signal it already has.  Remote
signals choose their ids.
-/

section Steps

variable {crates : Crates}

/-- Under this id the log has a signal of the neuron with these links. -/
def Logs (node : LiveNode crates.zheng) (id neuron : Particle) (links : List Link) : Prop :=
  ∃ sig, node.signals[id]? = some sig ∧ sig.neuron = neuron ∧ sig.links = links

/-- If `link` returns an id, the link is in the log under it. -/
def KeepsLink (node : LiveNode crates.zheng) («from» «to» : Particle) (amount : Nat)
    (valence : Int8) : Prop :=
  ∀ id, (node.link crates «from» «to» amount valence).2 = .ok id →
    Logs (node.link crates «from» «to» amount valence).1 id node.neuron
      (linkSignal node «from» «to» amount valence).links

/-- Nothing but this link is in the log under the next id. -/
def IdFree (node : LiveNode crates.zheng) («from» «to» : Particle) (amount : Nat)
    (valence : Int8) : Prop :=
  ∀ sig, node.signals[node.linkId]? = some sig →
    sig.neuron = node.neuron ∧ sig.links = (linkSignal node «from» «to» amount valence).links

theorem link_eq (node : LiveNode crates.zheng) («from» «to» : Particle) (amount : Nat)
    (valence : Int8) :
    node.link crates «from» «to» amount valence =
      ((node.ingestSignal crates (linkSignal node «from» «to» amount valence)).1,
        (node.ingestSignal crates (linkSignal node «from» «to» amount valence)).2.map
          fun _ => node.linkId) := rfl

theorem link_ok_id {node : LiveNode crates.zheng} {«from» «to» : Particle} {amount : Nat}
    {valence : Int8} {id : Particle}
    (linked : (node.link crates «from» «to» amount valence).2 = .ok id) : node.linkId = id := by
  rw [link_eq] at linked
  cases ingested : (node.ingestSignal crates (linkSignal node «from» «to» amount valence)).2 with
  | error reason =>
      rw [ingested] at linked
      cases linked
  | ok done =>
      rw [ingested] at linked
      exact Except.ok.inj linked

/-- A known id is taken for the link's own: `link` returns it and does nothing. -/
theorem link_known {node : LiveNode crates.zheng} (keeping : node.mode ≠ .light)
    (known : node.linkId ∈ node.signals) («from» «to» : Particle) (amount : Nat) (valence : Int8) :
    node.link crates «from» «to» amount valence = (node, .ok node.linkId) := by
  have ignored : node.ingestSignal crates (linkSignal node «from» «to» amount valence) =
      (node, .ok ()) := by
    rw [LiveNode.ingestSignal, if_neg keeping]
    exact if_pos (Std.ExtTreeMap.mem_iff_contains.mp known)
  rw [link_eq, ignored]
  rfl

theorem link_fresh {node : LiveNode crates.zheng} (keeping : node.mode ≠ .light)
    (fresh : node.linkId ∉ node.signals) («from» «to» : Particle) (amount : Nat) (valence : Int8) :
    Logs (node.link crates «from» «to» amount valence).1 node.linkId node.neuron
      (linkSignal node «from» «to» amount valence).links := by
  rcases ingestSignal_intake node (linkSignal node «from» «to» amount valence) with
    ⟨idle, _⟩ | ⟨_, _, signals, _⟩
  · exact absurd idle (not_or.mpr ⟨keeping, fresh⟩)
  · refine ⟨linkSignal node «from» «to» amount valence, ?_, rfl, rfl⟩
    rw [link_eq, signals]
    exact Std.ExtTreeMap.getElem?_insert_self

theorem link_keeps_iff {node : LiveNode crates.zheng} (keeping : node.mode ≠ .light)
    («from» «to» : Particle) (amount : Nat) (valence : Int8) :
    KeepsLink node «from» «to» amount valence ↔ IdFree node «from» «to» amount valence := by
  by_cases known : node.linkId ∈ node.signals
  · rw [KeepsLink, link_known keeping known]
    constructor
    · intro keeps sig held
      obtain ⟨logged, found, own⟩ := keeps node.linkId rfl
      cases held.symm.trans found
      exact own
    · intro free id returned
      rw [← Except.ok.inj returned]
      obtain ⟨held, found⟩ := Option.isSome_iff_exists.mp
        (Std.ExtTreeMap.mem_iff_isSome_getElem?.mp known)
      exact ⟨held, found, free held found⟩
  · constructor
    · intro _ sig held
      rw [Std.ExtTreeMap.getElem?_eq_none known] at held
      cases held
    · intro _ id returned
      rw [← link_ok_id returned]
      exact link_fresh keeping known «from» «to» amount valence

end Steps

section Runs

variable {crates : Crates} {mode : NodeMode} {neuron : Particle}

def linkIdAt (neuron : Particle) (size : Nat) : Particle :=
  Particle.padded (leBytes 8 (size + 1) ++ [neuron.get 0])

theorem linkIdAt_inj {size other : Nat} (bound : size + 1 < 2 ^ 64) (otherBound : other + 1 < 2 ^ 64)
    (same : linkIdAt neuron size = linkIdAt neuron other) : size = other := by
  have bytes := padded_inj (by simp) (by simp) same
  have counts := (leBytes_inj bound otherBound).mp (List.append_cancel_right bytes)
  omega

/-- The signal came in through `ingest_signal`. -/
def Received (calls : List (Call crates)) (sig : LiveSignal) : Prop :=
  ∃ earlier, earlier ++ [.ingestSignal sig] <+: calls

theorem Received.mono {calls more : List (Call crates)} {sig : LiveSignal}
    (received : Received calls sig) (within : calls <+: more) : Received more sig := by
  obtain ⟨earlier, before⟩ := received
  exact ⟨earlier, before.trans within⟩

/-- A call leaves the log, or adds to it the one signal that it takes in. -/
theorem perform_signals (node : LiveNode crates.zheng) (call : Call crates) :
    (perform node call).signals = node.signals ∨
      ∃ sig, TakesIn node call sig ∧ (perform node call).signals = node.signals.insert sig.id sig := by
  cases hands : offered node call with
  | none => exact .inl (perform_quiet hands).1
  | some sig =>
      rw [perform_offered hands]
      rcases ingestSignal_intake node sig with ⟨_, same⟩ | ⟨keeping, fresh, signals, _⟩
      · exact .inl (congrArg LiveNode.signals same)
      · exact .inr ⟨sig, ⟨hands, keeping, fresh⟩, signals⟩

theorem size_insert {node : LiveNode crates.zheng} {call : Call crates} {sig : LiveSignal}
    (takes : TakesIn node call sig) :
    (node.signals.insert sig.id sig).size = node.signals.size + 1 := by
  rw [Std.ExtTreeMap.size_insert, if_neg fun known => takes.fresh (Std.ExtTreeMap.mem_iff_contains.mpr known)]

theorem nodeAfter_nil_signals : (nodeAfter crates mode neuron []).signals = ∅ := rfl

theorem size_le (calls : List (Call crates)) :
    (nodeAfter crates mode neuron calls).signals.size ≤ calls.length := by
  induction calls using List.reverseRecOn with
  | nil => exact Nat.le_of_eq Std.ExtTreeMap.size_empty
  | append_singleton calls call ih =>
      rw [nodeAfter_append, List.length_append, List.length_singleton]
      rcases perform_signals (nodeAfter crates mode neuron calls) call with same | ⟨sig, takes, added⟩
      · rw [same]
        exact Nat.le_succ_of_le ih
      · rw [added, size_insert takes]
        exact Nat.succ_le_succ ih

/-- A signal that a call hands over is the received one, or has the next link's id. -/
theorem offered_cases {node : LiveNode crates.zheng} {call : Call crates} {sig : LiveSignal}
    (hands : offered node call = some sig) : call = .ingestSignal sig ∨ sig.id = node.linkId := by
  cases call with
  | ingestSignal other => exact .inl (congrArg Call.ingestSignal (Option.some.inj hands))
  | link «from» «to» amount valence =>
      rw [← Option.some.inj hands]
      exact .inr rfl
  | _ => simp [offered] at hands

/-- What is in the log was received, or linked when the log was smaller. -/
theorem logged_origin (calls : List (Call crates)) {id : Particle} {sig : LiveSignal}
    (held : (nodeAfter crates mode neuron calls).signals[id]? = some sig) :
    Received calls sig ∨
      ∃ size < (nodeAfter crates mode neuron calls).signals.size, id = linkIdAt neuron size := by
  induction calls using List.reverseRecOn with
  | nil =>
      rw [nodeAfter_nil_signals] at held
      simp at held
  | append_singleton calls call ih =>
      have owner : (nodeAfter crates mode neuron calls).neuron = neuron :=
        (run_accounted crates mode neuron calls).owner
      have later : calls <+: calls ++ [call] := List.prefix_append calls [call]
      rw [nodeAfter_append] at held ⊢
      rcases perform_signals (nodeAfter crates mode neuron calls) call with same | ⟨taken, takes, added⟩
      · rw [same] at held ⊢
        exact (ih held).imp_left fun received => received.mono later
      · rw [added, Std.ExtTreeMap.getElem?_insert] at held
        rw [added, size_insert takes]
        split_ifs at held with here
        · obtain rfl := Option.some.inj held
          rcases offered_cases takes.offered with rfl | named
          · exact .inl ⟨calls, List.prefix_refl _⟩
          · refine .inr ⟨_, Nat.lt_succ_self _, ?_⟩
            rw [← Std.compare_eq_iff_eq.mp here, named, LiveNode.linkId, owner, linkIdAt]
        · refine (ih held).imp (fun received => received.mono later) fun linked => ?_
          obtain ⟨size, smaller, named⟩ := linked
          exact ⟨size, Nat.lt_succ_of_lt smaller, named⟩

/-- The signal that has taken the id of the next link was received from elsewhere. -/
theorem linkId_taken {calls : List (Call crates)} (short : calls.length + 1 < 2 ^ 64)
    {sig : LiveSignal} (held : (nodeAfter crates mode neuron calls).signals[
      (nodeAfter crates mode neuron calls).linkId]? = some sig) : Received calls sig := by
  have bound : (nodeAfter crates mode neuron calls).signals.size ≤ calls.length := size_le calls
  rcases logged_origin calls held with received | ⟨size, smaller, named⟩
  · exact received
  · have owner : (nodeAfter crates mode neuron calls).neuron = neuron :=
      (run_accounted crates mode neuron calls).owner
    rw [LiveNode.linkId, owner] at named
    have equal := linkIdAt_inj (by omega) (by omega) named
    omega

/-- In every run of a full or cell node, its links are kept exactly if each finds its id
free, or already the id of this very link. -/
theorem links_kept_iff (keeping : mode ≠ .light) (calls : List (Call crates)) :
    (∀ earlier «from» «to» amount valence,
      earlier ++ [.link «from» «to» amount valence] <+: calls →
        KeepsLink (nodeAfter crates mode neuron earlier) «from» «to» amount valence) ↔
    ∀ earlier «from» «to» amount valence,
      earlier ++ [.link «from» «to» amount valence] <+: calls →
        IdFree (nodeAfter crates mode neuron earlier) «from» «to» amount valence := by
  have each (earlier : List (Call crates)) («from» «to» : Particle) (amount : Nat) (valence : Int8) :
      KeepsLink (nodeAfter crates mode neuron earlier) «from» «to» amount valence ↔
        IdFree (nodeAfter crates mode neuron earlier) «from» «to» amount valence := by
    obtain ⟨_, _, issuing⟩ := run_issuing crates keeping neuron earlier
    exact link_keeps_iff issuing.keeping «from» «to» amount valence
  simp only [each]

def peerSignal : LiveSignal := { namedSignal 1 with neuron := Particle.padded [9] }

/-- The link comes after the signal of a peer. -/
theorem links_kept_iff_after_peer :
    let node := nodeAfter sampleCrates .full (Particle.padded [7]) [.ingestSignal peerSignal]
    NodeMode.full ≠ .light ∧ node.signals.size = 1 ∧
      KeepsLink node (Particle.padded [8]) (Particle.padded [9]) 5 1 ∧
      (node.link sampleCrates (Particle.padded [8]) (Particle.padded [9]) 5 1).2 =
        .ok node.linkId := by
  intro node
  have facts : node.signals.size = 1 ∧ node.signals[node.linkId]?.isNone = true ∧
      (node.link sampleCrates (Particle.padded [8]) (Particle.padded [9]) 5 1).2 =
        .ok node.linkId := by
    decide +kernel
  have free : ∀ earlier «from» «to» amount valence,
      earlier ++ [.link «from» «to» amount valence] <+:
        [.ingestSignal peerSignal, .link (Particle.padded [8]) (Particle.padded [9]) 5 1] →
      IdFree (nodeAfter sampleCrates .full (Particle.padded [7]) earlier) «from» «to» amount
        valence := by
    rintro (_ | ⟨first, rest⟩) _ _ _ _ within sig held
    · cases (List.cons_prefix_cons.mp within).1
    · obtain ⟨rfl, within⟩ := List.cons_prefix_cons.mp within
      have shorter := within.length_le
      simp only [List.length_append, List.length_cons, List.length_nil] at shorter
      obtain rfl : rest = [] := List.eq_nil_of_length_eq_zero (by omega)
      rw [Option.isNone_iff_eq_none.mp facts.2.1] at held
      cases held
  exact ⟨by decide, facts.1, (links_kept_iff (by decide) _).mpr free [.ingestSignal peerSignal]
    _ _ _ _ (List.prefix_refl _), facts.2.2⟩

/-- A signal of another neuron under the id that the node's first link will have. -/
def squatter : LiveSignal :=
  { namedSignal 1 with id := linkIdAt (Particle.padded [7]) 1, neuron := Particle.padded [9] }

/-- `link` returns the id of the squatter, and the link is nowhere. -/
theorem link_lost :
    let node := nodeAfter sampleCrates .full (Particle.padded [7]) [.ingestSignal squatter]
    let linked := node.link sampleCrates (Particle.padded [8]) (Particle.padded [9]) 5 1
    linked.2 = .ok squatter.id ∧ linked.1.signals.size = 1 ∧
      linked.1.signals[squatter.id]?.map LiveSignal.neuron = some (Particle.padded [9]) ∧
      ¬ KeepsLink node (Particle.padded [8]) (Particle.padded [9]) 5 1 := by
  intro node linked
  have returned : linked.2 = .ok squatter.id := by decide +kernel
  have held : linked.1.signals[squatter.id]?.map LiveSignal.neuron = some (Particle.padded [9]) := by
    decide +kernel
  refine ⟨returned, by decide +kernel, held, fun keeps => ?_⟩
  obtain ⟨sig, found, own, _⟩ := keeps squatter.id returned
  have stranger : sig.neuron = Particle.padded [9] := by
    have same := held
    rw [found] at same
    exact Option.some.inj same
  exact absurd (stranger.symm.trans own) (by decide +kernel)

end Runs

end Foculus.Live

import Foculus.Gossip.Radio

namespace Foculus.Gossip

/-! # Arrivals and collectors interleaved

A collector of `src/radio_settle.rs` takes the whole inbox, sorts it while the
lock is free, and pushes back what it did not want.
-/

inductive Collector where
  | selfAccs (topic : Topic)
  | claims (topic : Topic)

namespace Collector

def wants : Collector → SettleMsg → Bool
  | selfAccs topic, msg => (selfAccFor topic msg).isSome
  | claims topic, msg => (claimFor topic msg).isSome

def rest : Collector → List SettleMsg → List SettleMsg
  | selfAccs topic, msgs => (collect (selfAccFor topic) msgs).2
  | claims topic, msgs => (collect (claimFor topic) msgs).2

theorem rest_eq (collector : Collector) (msgs : List SettleMsg) :
    collector.rest msgs = msgs.filter fun msg => !collector.wants msg := by
  cases collector <;> simp [rest, wants, collect_eq]

end Collector

/-- A collector between its two steps: the messages whose payloads it will
return, and those it will push back. -/
structure Running where
  kept : List SettleMsg
  rest : List SettleMsg

def Running.msgs (collector : Running) : List SettleMsg := collector.kept ++ collector.rest

inductive Place where
  | inbox
  | collector (task : Nat)
  | caller (call : Nat)

/-- The radio, its running collectors, and what every finished call returned;
`accepted` records the messages that were not dropped by `ingest`. -/
structure System where
  radio : RadioState
  running : List Running
  returned : List (List SettleMsg)
  accepted : List SettleMsg

inductive Step where
  | subscribe (topic : Topic)
  | ingest (msg : SettleMsg)
  | drain
  | start (collector : Collector)
  | finish (task : Nat)

namespace System

def initial : System := { radio := PeerState.default, running := [], returned := [], accepted := [] }

def step (hemera : Hemera) (system : System) : Step → System
  | .subscribe topic => { system with radio := system.radio.subscribe topic }
  | .ingest msg =>
      if system.radio.accepts msg.topic && (system.radio.deliver hemera msg).2 then
        { system with
          radio := ingest hemera system.radio msg
          accepted := system.accepted ++ [msg] }
      else { system with radio := ingest hemera system.radio msg }
  | .drain =>
      { system with
        radio := system.radio.drain.2
        returned := system.returned ++ [system.radio.drain.1] }
  | .start collector =>
      let msgs := system.radio.drain.1
      { system with
        radio := system.radio.drain.2
        running := system.running ++
          [{ kept := msgs.filter collector.wants, rest := collector.rest msgs }] }
  | .finish task =>
      match system.running[task]? with
      | none => system
      | some collector =>
          { system with
            radio := system.radio.requeue collector.rest
            running := system.running.eraseIdx task
            returned := system.returned ++ [collector.kept] }

def run (hemera : Hemera) (steps : List Step) : System := steps.foldl (step hemera) initial

/-- Every place with the messages in it. -/
def holders (system : System) : List (Place × List SettleMsg) :=
  (.inbox, system.radio.inbox) ::
    (system.running.mapIdx (fun task collector => (.collector task, collector.msgs)) ++
      system.returned.mapIdx fun call msgs => (.caller call, msgs))

def everywhere (system : System) : List SettleMsg := system.holders.flatMap Prod.snd

variable {hemera : Hemera} {system : System}

theorem numbered_flatMap (place : Nat → Place) (msgs : α → List SettleMsg) (holders : List α) :
    (holders.mapIdx fun number holder => (place number, msgs holder)).flatMap Prod.snd =
      holders.flatMap msgs := by
  rw [List.flatMap_def, List.flatMap_def]
  congr 1
  exact List.ext_getElem (by simp) fun number _ _ => by simp

theorem everywhere_eq (system : System) :
    system.everywhere = system.radio.inbox ++
      (system.running.flatMap Running.msgs ++ system.returned.flatten) := by
  rw [everywhere, holders, List.flatMap_cons, List.flatMap_append,
    numbered_flatMap .collector Running.msgs, numbered_flatMap .caller fun msgs => msgs,
    List.flatMap_id']

/-- No message is in two places, and none got lost. -/
structure Conserved (hemera : Hemera) (system : System) : Prop where
  kept : system.everywhere.Perm system.accepted
  distinct : (system.accepted.map (SettleMsg.contentId hemera)).Nodup
  seen : ∀ cid, cid ∈ system.radio.seen ↔ cid ∈ system.accepted.map (SettleMsg.contentId hemera)

theorem step_moves (moved : Step) (notIngest : ∀ msg, moved ≠ .ingest msg) :
    (system.step hemera moved).everywhere.Perm system.everywhere := by
  rw [everywhere_eq, everywhere_eq, ← Multiset.coe_eq_coe]
  cases moved with
  | subscribe topic => rfl
  | ingest msg => exact absurd rfl (notIngest msg)
  | drain =>
      simp only [step, PeerState.drain_fst, PeerState.drain_inbox, List.flatten_append,
        List.flatten_singleton, List.nil_append, ← Multiset.coe_add]
      abel
  | start collector =>
      have sorted : (system.radio.inbox.filter collector.wants ++
          collector.rest system.radio.inbox).Perm system.radio.inbox := by
        rw [collector.rest_eq]
        exact List.filter_append_perm collector.wants system.radio.inbox
      have parts := Multiset.coe_eq_coe.mpr sorted
      simp only [step, PeerState.drain_fst, PeerState.drain_inbox, List.flatMap_append,
        List.flatMap_singleton, Running.msgs, List.nil_append, ← Multiset.coe_add] at parts ⊢
      rw [parts]
      abel
  | finish task =>
      cases found : system.running[task]? with
      | none => simp only [step, found]
      | some collector =>
          obtain ⟨bound, rfl⟩ := List.getElem?_eq_some_iff.mp found
          have taken := (List.getElem_cons_eraseIdx_perm bound).flatMap_right Running.msgs
          have parts := Multiset.coe_eq_coe.mpr taken
          simp only [step, found, PeerState.requeue_inbox, List.flatMap_cons, Running.msgs, List.flatten_append,
            List.flatten_singleton, ← Multiset.coe_add] at parts ⊢
          rw [← parts]
          abel

theorem step_frame (moved : Step) (notIngest : ∀ msg, moved ≠ .ingest msg) :
    (system.step hemera moved).accepted = system.accepted ∧
      (system.step hemera moved).radio.seen = system.radio.seen := by
  cases moved with
  | subscribe topic => exact ⟨rfl, rfl⟩
  | ingest msg => exact absurd rfl (notIngest msg)
  | drain => exact ⟨rfl, rfl⟩
  | start collector => exact ⟨rfl, rfl⟩
  | finish task => cases found : system.running[task]? <;> simp [step, found]

theorem ingest_new {msg : SettleMsg}
    (new : (system.radio.accepts msg.topic && (system.radio.deliver hemera msg).2) = true) :
    system.step hemera (.ingest msg) =
        { system with
          radio := {
            system.radio with
            inbox := system.radio.inbox ++ [msg]
            seen := system.radio.seen.insert (msg.contentId hemera) }
          accepted := system.accepted ++ [msg] } ∧
      system.radio.seen.contains (msg.contentId hemera) = false := by
  obtain ⟨accepts, new⟩ := Bool.and_eq_true_iff.mp new
  cases known : system.radio.seen.contains (msg.contentId hemera) with
  | true =>
      rw [PeerState.deliver_known known] at new
      cases new
  | false =>
      simp [step, ingest, accepts, PeerState.deliver_new known]

theorem ingest_dropped {msg : SettleMsg}
    (dropped : (system.radio.accepts msg.topic && (system.radio.deliver hemera msg).2) = false) :
    system.step hemera (.ingest msg) = system := by
  simp only [step, dropped, ingest]
  cases accepts : system.radio.accepts msg.topic with
  | false => rfl
  | true =>
      cases known : system.radio.seen.contains (msg.contentId hemera) with
      | true => simp [PeerState.deliver_known known]
      | false => simp [accepts, PeerState.deliver_new known] at dropped

theorem step_conserved (conserved : Conserved hemera system) (next : Step) :
    Conserved hemera (system.step hemera next) := by
  by_cases arrival : ∃ msg, next = .ingest msg
  · obtain ⟨msg, rfl⟩ := arrival
    cases new : system.radio.accepts msg.topic && (system.radio.deliver hemera msg).2 with
    | false =>
        rw [ingest_dropped new]
        exact conserved
    | true =>
        obtain ⟨stepped, fresh⟩ := ingest_new new
        rw [stepped]
        have absent : msg.contentId hemera ∉ system.accepted.map (SettleMsg.contentId hemera) := by
          rw [← conserved.seen, Std.ExtTreeSet.mem_iff_contains, fresh]
          exact Bool.false_ne_true
        refine ⟨?_, ?_, fun cid => ?_⟩
        · have kept := Multiset.coe_eq_coe.mpr conserved.kept
          rw [← Multiset.coe_eq_coe]
          simp only [everywhere_eq, ← Multiset.coe_add] at kept ⊢
          rw [← kept]
          abel
        · rw [List.map_append]
          exact List.nodup_append_comm.mpr (List.nodup_cons.mpr ⟨absent, conserved.distinct⟩)
        · rw [Std.ExtTreeSet.mem_insert, Std.LawfulEqCmp.compare_eq_iff_eq, conserved.seen,
            List.map_append, List.mem_append, List.map_singleton, List.mem_singleton, or_comm, eq_comm]
  · have notIngest (msg : SettleMsg) : next ≠ .ingest msg := fun same => arrival ⟨msg, same⟩
    obtain ⟨accepted, seen⟩ := step_frame next notIngest
    refine ⟨?_, ?_, ?_⟩
    · rw [accepted]
      exact (step_moves next notIngest).trans conserved.kept
    · rw [accepted]
      exact conserved.distinct
    · rw [accepted, seen]
      exact conserved.seen

theorem run_conserved (hemera : Hemera) (steps : List Step) :
    Conserved hemera (run hemera steps) := by
  induction steps using List.reverseRecOn with
  | nil => exact ⟨.nil, List.nodup_nil, fun cid => by simp [run, initial, PeerState.default]⟩
  | append_singleton steps next ih =>
      rw [run, List.foldl_append]
      exact step_conserved ih next

theorem Conserved.seen_iff (conserved : Conserved hemera system) (cid : Particle) :
    cid ∈ system.radio.seen ↔ cid ∈ system.everywhere.map (SettleMsg.contentId hemera) := by
  rw [conserved.seen]
  exact (conserved.kept.map _).mem_iff.symm

/-- The content ids in one place. -/
def ids (hemera : Hemera) (holder : Place × List SettleMsg) : List Particle :=
  holder.2.map (SettleMsg.contentId hemera)

theorem Conserved.one_holder (conserved : Conserved hemera system) {cid : Particle}
    (accepted : cid ∈ system.radio.seen) :
    ∃ holder ∈ system.holders, (ids hemera holder).count cid = 1 ∧
      ∀ other ∈ system.holders, cid ∈ ids hemera other → other = holder := by
  have all : system.everywhere.map (SettleMsg.contentId hemera) =
      system.holders.flatMap (ids hemera) := by
    rw [everywhere, List.map_flatMap]
    rfl
  have distinct : (system.holders.flatMap (ids hemera)).Nodup := by
    rw [← all]
    exact (conserved.kept.map _).nodup_iff.mpr conserved.distinct
  obtain ⟨once, apart⟩ := List.nodup_flatMap.mp distinct
  have member := (conserved.seen_iff cid).mp accepted
  rw [all] at member
  obtain ⟨holder, isHolder, inside⟩ := List.mem_flatMap.mp member
  refine ⟨holder, isHolder, List.count_eq_one_of_mem (once holder isHolder) inside, ?_⟩
  intro other isOther alsoInside
  by_contra different
  have symmetric : Std.Symm (Function.onFun List.Disjoint (ids hemera)) :=
    ⟨fun _ _ disjoint => disjoint.symm⟩
  exact apart.forall isOther isHolder different alsoInside inside

/-- In whatever order messages arrive, inboxes are drained and collectors take
and give back, the messages that were accepted are the ones that are held, and
every accepted content id is in one place, once. -/
theorem run_one_place (hemera : Hemera) (steps : List Step) :
    (run hemera steps).everywhere.Perm (run hemera steps).accepted ∧
      ∀ cid ∈ (run hemera steps).radio.seen, ∃ holder ∈ (run hemera steps).holders,
        (ids hemera holder).count cid = 1 ∧
        ∀ other ∈ (run hemera steps).holders, cid ∈ ids hemera other → other = holder :=
  have conserved := run_conserved hemera steps
  ⟨conserved.kept, fun _ accepted => conserved.one_holder accepted⟩

/-- A collector of accumulators and one of claims, started one after the other,
with an arrival between their steps. -/
def sampleSteps : List Step :=
  (sampleMsgs.map Step.ingest).take 2 ++
    [.start (.selfAccs (Particle.padded [9])), .ingest (.receiptHash (Particle.padded [9]) (Particle.padded [8]) 3),
      .start (.claims (Particle.padded [9])), .finish 0]

theorem run_one_place_sample :
    ∃ holder ∈ (run Hemera.truncating sampleSteps).holders,
      (ids Hemera.truncating holder).count sampleClaim.id = 1 ∧
      ∀ other ∈ (run Hemera.truncating sampleSteps).holders,
        sampleClaim.id ∈ ids Hemera.truncating other → other = holder :=
  (run_one_place Hemera.truncating sampleSteps).2 sampleClaim.id (by decide +kernel)

end System

end Foculus.Gossip

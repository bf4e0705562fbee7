import Foculus.Sync.Cluster

namespace Foculus.Sync

open Data Erasure Store

/-! # What holds of a cluster in any order of steps

Every registry, in a memory, in a file or underway, is made of entries that were
written by some `put_file` or `delete_file`; a registry that has been saved is never
fallen behind again; and nodes that have exchanged their registries agree.
-/

/-- The device never runs full in the middle of `registry.json`. -/
def SyncNode.Whole (node : SyncNode) : Prop :=
  ∀ written, node.tree.obstacle node.registryPath ≠ some (.full written)

namespace Cluster

variable {ι : Type} {platform : Platform} {cluster after : Cluster ι} {event : ClusterEvent ι}

/-- What the registries of a cluster have in common in every order of steps. -/
structure Sound (json : Json) (cluster : Cluster ι) : Prop where
  keyed : ∀ place, (cluster.nodes place).state.registry.Keyed
  storedKeyed : ∀ place stored, SyncNode.loadRegistry json (cluster.nodes place) = some stored →
    stored.Keyed
  receivedKeyed : ∀ label place response, cluster.responses label = some (place, response) →
    response.registry.Keyed
  plain : ∀ entry, cluster.Holds json entry → ∀ hash ∈ entry.shardHashes, FileTree.Plain hash
  behind : ∀ place stored, SyncNode.loadRegistry json (cluster.nodes place) = some stored →
    ∀ name, stored.rank name ≤ (cluster.nodes place).state.registry.rank name

/-- The entries that a step can hand to a node. -/
def known (platform : Platform) (cluster : Cluster ι) (event : ClusterEvent ι) :
    Set FileEntry :=
  {entry | cluster.Holds platform.json.toJson entry ∨ cluster.writes platform event = some entry}

/-- What a step can do. -/
structure Stepped (platform : Platform) (cluster after : Cluster ι) (event : ClusterEvent ι) :
    Prop where
  nodes : ∀ place, Moves platform.json.toJson (cluster.known platform event)
      (cluster.nodes place) (after.nodes place) ∨
    ∃ stored, SyncNode.loadRegistry platform.json.toJson (cluster.nodes place) = some stored ∧
      after.nodes place = { cluster.nodes place with state.registry := stored }
  responses : ∀ label place response, after.responses label = some (place, response) →
    cluster.responses label = some (place, response) ∨
    ∃ peer, (cluster.nodes peer).servedRegistry platform.json.toJson = some response.registry

section Frames

variable {place peer : ι} {stored : GSet} {entry : FileEntry}

theorem holds_served {json : Json} {peer : ι} {registry : GSet} {entry : FileEntry}
    (served : (cluster.nodes peer).servedRegistry json = some registry)
    (held : entry ∈ registry.values) : cluster.Holds json entry := by
  rw [SyncNode.servedRegistry] at served
  split_ifs at served
  · exact .stored peer registry served held
  · cases served
    exact .memory peer held

theorem Stepped.refl : Stepped platform cluster cluster event :=
  ⟨fun _ => .inl (.refl _), fun _ _ _ => .inl⟩

theorem request_nodes (label : Nat) (place peer : ι) :
    (cluster.request platform label place peer).nodes = cluster.nodes := by
  rw [request]
  split <;> rfl

theorem stepped_request (lawful : platform.json.Lawful) (label : Nat) (place peer : ι) :
    Stepped platform cluster (cluster.request platform label place peer) event := by
  rw [request]
  cases answered : fetchRegistryWithProof platform.json platform.foreign
    ((cluster.nodes peer).handleConnection platform.hemera platform.json.toJson registryRequest) with
  | error text => exact .refl
  | ok response =>
      obtain ⟨registry, served, rfl, -⟩ := (SyncNode.fetchRegistry_handled lawful).mp answered
      refine ⟨fun _ => .inl (.refl _), fun other target answer underway => ?_⟩
      simp only [Function.update_apply] at underway
      split_ifs at underway
      · cases underway
        exact .inr ⟨peer, served⟩
      · exact .inl underway

/-- A step brings no entry but the one that it writes. -/
theorem Stepped.holds (stepped : Stepped platform cluster after event)
    (held : after.Holds platform.json.toJson entry) :
    entry ∈ cluster.known platform event := by
  cases held with
  | memory place held =>
      rcases stepped.nodes place with moves | ⟨stored, loaded, moved⟩
      · rcases moves.learns.mem held with before | known
        · exact .inl (.memory place before)
        · exact known
      · rw [moved] at held
        exact .inl (.stored place stored loaded held)
  | stored place registry loaded held =>
      rcases stepped.nodes place with moves | ⟨stored, before, moved⟩
      · rcases moves.stored with same | ⟨saved, now, learns, -⟩ | ⟨-, damaged⟩
        · exact .inl (.stored place registry (same ▸ loaded) held)
        · cases now.symm.trans loaded
          rcases learns.mem held with before | known
          · exact .inl (.memory place before)
          · exact known
        · rw [damaged registry loaded] at held
          simp [GSet.values, GSet.new] at held
      · have same : SyncNode.loadRegistry platform.json.toJson (after.nodes place) =
            SyncNode.loadRegistry platform.json.toJson (cluster.nodes place) := by
          rw [moved]
          exact SyncNode.loadRegistry_congr rfl rfl
        exact .inl (.stored place registry (same ▸ loaded) held)
  | underway label place response received held =>
      rcases stepped.responses label place response received with before | ⟨peer, served⟩
      · exact .inl (.underway label place response before held)
      · exact .inl (holds_served served held)

/-- The chunks of an entry that is written have hashes for names. -/
theorem writes_plain (printed : platform.hemera.toHex = hexText)
    (sound : cluster.Sound platform.json.toJson)
    (written : cluster.writes platform event = some entry) :
    ∀ hash ∈ entry.shardHashes, FileTree.Plain hash := by
  cases event with
  | put place now name data =>
      cases written
      intro hash member
      obtain ⟨shard, -, rfl⟩ := List.mem_map.mp member
      rw [chunkName, printed]
      exact hexText_plain _
  | delete place now name =>
      obtain ⟨existing, held, rfl⟩ := Option.map_eq_some_iff.mp written
      exact sound.plain existing (.memory place (GSet.mem_values.mpr ⟨name, held⟩))
  | _ => cases written

theorem Stepped.sound (printed : platform.hemera.toHex = hexText)
    (sound : cluster.Sound platform.json.toJson) (stepped : Stepped platform cluster after event) :
    after.Sound platform.json.toJson := by
  have reloaded : ∀ place stored, after.nodes place =
      { cluster.nodes place with state.registry := stored } →
      SyncNode.loadRegistry platform.json.toJson (after.nodes place) =
        SyncNode.loadRegistry platform.json.toJson (cluster.nodes place) := by
    intro place stored moved
    rw [moved]
    exact SyncNode.loadRegistry_congr rfl rfl
  refine ⟨?keyed, ?storedKeyed, ?receivedKeyed, ?plain, ?behind⟩
  case keyed =>
    intro place
    rcases stepped.nodes place with moves | ⟨stored, loaded, moved⟩
    · exact moves.learns.keyed (sound.keyed place)
    · rw [moved]
      exact sound.storedKeyed place stored loaded
  case storedKeyed =>
    intro place registry loaded
    rcases stepped.nodes place with moves | ⟨stored, before, moved⟩
    · rcases moves.stored with same | ⟨saved, now, learns, -⟩ | ⟨-, damaged⟩
      · exact sound.storedKeyed place registry (same ▸ loaded)
      · cases now.symm.trans loaded
        exact learns.keyed (sound.keyed place)
      · rw [damaged registry loaded]
        exact GSet.new_keyed
    · exact sound.storedKeyed place registry (reloaded place stored moved ▸ loaded)
  case receivedKeyed =>
    intro label place response received
    rcases stepped.responses label place response received with before | ⟨peer, served⟩
    · exact sound.receivedKeyed label place response before
    · rw [SyncNode.servedRegistry] at served
      split_ifs at served
      · exact sound.storedKeyed peer _ served
      · rw [← Option.some.inj served]
        exact sound.keyed peer
  case plain =>
    intro entry held
    rcases stepped.holds held with before | written
    · exact sound.plain entry before
    · exact writes_plain printed sound written
  case behind =>
    intro place registry loaded name
    rcases stepped.nodes place with moves | ⟨stored, before, moved⟩
    · rcases moves.stored with same | ⟨saved, now, -, later⟩ | ⟨-, damaged⟩
      · exact (sound.behind place registry (same ▸ loaded) name).trans (moves.learns.rank_le name)
      · cases now.symm.trans loaded
        exact later.rank_le name
      · rw [damaged registry loaded, GSet.new_rank]
        exact bot_le
    · rw [reloaded place stored moved, before] at loaded
      cases loaded
      rw [moved]

/-- A step that does not damage the stored registry leaves one that is as new. -/
theorem Stepped.lasts (sound : cluster.Sound platform.json.toJson)
    (stepped : Stepped platform cluster after event) (whole : (cluster.nodes place).Whole)
    (loaded : SyncNode.loadRegistry platform.json.toJson (cluster.nodes place) = some stored) :
    (after.nodes place).Whole ∧
      ∃ later, SyncNode.loadRegistry platform.json.toJson (after.nodes place) = some later ∧
        ∀ name, stored.rank name ≤ later.rank name := by
  rcases stepped.nodes place with moves | ⟨registry, -, moved⟩
  · refine ⟨fun room full => whole room ?_, ?_⟩
    · rwa [moves.obstacle, moves.path] at full
    · rcases moves.stored with same | ⟨saved, now, learns, -⟩ | ⟨⟨room, full⟩, -⟩
      · exact ⟨stored, same.trans loaded, fun _ => le_rfl⟩
      · exact ⟨saved, now, fun name =>
          (sound.behind place stored loaded name).trans (learns.rank_le name)⟩
      · exact absurd full (whole room)
  · rw [moved]
    exact ⟨whole, stored, (SyncNode.loadRegistry_congr rfl rfl).trans loaded, fun _ => le_rfl⟩

/-- What a peer serves is as new as what it has stored. -/
theorem served_rank_le (sound : cluster.Sound platform.json.toJson) {served : GSet}
    (loaded : SyncNode.loadRegistry platform.json.toJson (cluster.nodes peer) = some stored)
    (serves : (cluster.nodes peer).servedRegistry platform.json.toJson = some served)
    (name : String) : stored.rank name ≤ served.rank name := by
  rw [SyncNode.servedRegistry] at serves
  split_ifs at serves
  · cases loaded.symm.trans serves
    exact le_rfl
  · rw [← Option.some.inj serves]
    exact sound.behind peer stored loaded name

/-- A cluster of nodes that have just been started. -/
theorem sound_of_saved {json : Json}
    (keyed : ∀ place, (cluster.nodes place).state.registry.Keyed)
    (saved : ∀ place, SyncNode.loadRegistry json (cluster.nodes place) =
      some (cluster.nodes place).state.registry)
    (idle : ∀ label, cluster.responses label = none)
    (plain : ∀ place, ∀ entry ∈ (cluster.nodes place).state.registry.values,
      ∀ hash ∈ entry.shardHashes, FileTree.Plain hash) : cluster.Sound json where
  keyed := keyed
  storedKeyed place stored loaded := by
    cases (saved place).symm.trans loaded
    exact keyed place
  receivedKeyed label place response received := by
    rw [idle label] at received
    cases received
  plain entry held := by
    cases held with
    | memory place held => exact plain place entry held
    | stored place stored loaded held =>
        cases (saved place).symm.trans loaded
        exact plain place entry held
    | underway label place response received held =>
        rw [idle label] at received
        cases received
  behind place stored loaded name := by
    cases (saved place).symm.trans loaded
    exact le_rfl

end Frames

section Step

variable [DecidableEq ι]

/-- A call at one node leaves the other nodes as they are. -/
theorem act_nodes {α : Type} {place : ι} {action : Action SyncNode String α}
    (moves : Moves platform.json.toJson (cluster.known platform event) (cluster.nodes place)
      (action (cluster.nodes place)).2) (other : ι) :
    Moves platform.json.toJson (cluster.known platform event) (cluster.nodes other)
      ((cluster.act place action).nodes other) := by
  rw [act]
  by_cases here : other = place
  · subst here
    simpa only [Function.update_self] using moves
  · simpa only [Function.update_of_ne here] using .refl _

theorem stepped_act {α : Type} {place : ι} {action : Action SyncNode String α}
    (moves : Moves platform.json.toJson (cluster.known platform event) (cluster.nodes place)
      (action (cluster.nodes place)).2) :
    Stepped platform cluster (cluster.act place action) event :=
  ⟨fun other => .inl (act_nodes moves other), fun _ _ _ => .inl⟩

theorem stepped_deliver {label : Nat} {call : RegistryResponse → Action SyncNode String Unit}
    (moves : ∀ place response, cluster.responses label = some (place, response) →
      Moves platform.json.toJson (cluster.known platform event) (cluster.nodes place)
        (call response (cluster.nodes place)).2) :
    Stepped platform cluster (cluster.deliver label call) event := by
  rw [deliver]
  cases received : cluster.responses label with
  | none => exact .refl
  | some flight =>
      obtain ⟨place, response⟩ := flight
      refine ⟨fun other => .inl (act_nodes (moves place response received) other), ?_⟩
      intro other target answer underway
      refine .inl ?_
      simp only [Function.update_apply] at underway
      split_ifs at underway
      exact underway

theorem stepped_restart (place : ι) :
    Stepped platform cluster (cluster.restart platform.json.toJson place) event := by
  rw [restart]
  cases loaded : SyncNode.loadRegistry platform.json.toJson (cluster.nodes place) with
  | none => exact .refl
  | some registry =>
      refine ⟨fun other => ?_, fun label target answer underway => ?_⟩
      · by_cases here : other = place
        · subst here
          exact .inr ⟨registry, loaded, Function.update_self ..⟩
        · left
          simpa only [Function.update_of_ne here] using .refl _
      · exact .inl (Option.filter_eq_some_iff.mp underway).1

variable (printed : platform.hemera.toHex = hexText) (lawful : platform.json.Lawful)
include printed lawful

/-- Every step of a cluster is of the kind described. -/
theorem step_stepped (sound : cluster.Sound platform.json.toJson) :
    Stepped platform cluster (cluster.step platform event) event := by
  cases event with
  | put place now name data => exact stepped_act (SyncNode.putFile_moves printed lawful (.inr rfl))
  | delete place now name =>
      refine stepped_act (SyncNode.deleteFile_moves lawful fun existing held => .inr ?_)
      rw [writes, held, Option.map_some]
  | get place fetch name =>
      exact stepped_act (SyncNode.getFile_moves printed fetch fun entry member =>
        sound.plain entry (.memory place member))
  | remove place name => exact stepped_act (SyncNode.removeChunk_moves name _)
  | request label place peer => exact stepped_request lawful label place peer
  | settle label peer exchange =>
      exact stepped_deliver fun place response received =>
        SyncNode.settleResponse_moves printed lawful peer
          (fun entry held => .inl (.underway label place response received held)) _
  | round label exchange =>
      exact stepped_deliver fun place response received =>
        SyncNode.backgroundRound_moves printed lawful
          (fun entry held => .inl (.underway label place response received held)) _
  | load place disk =>
      exact stepped_act (SyncNode.mergeFromDisk_moves disk fun stored loaded entry member =>
        .inl (.stored place stored loaded member))
  | restart place => exact stepped_restart place

end Step

theorem run_append [DecidableEq ι] (platform : Platform) (cluster : Cluster ι)
    (front back : List (ClusterEvent ι)) :
    cluster.run platform (front ++ back) = (cluster.run platform front).run platform back :=
  List.foldl_append ..

section Runs

variable [DecidableEq ι] (printed : platform.hemera.toHex = hexText) (lawful : platform.json.Lawful)
include printed lawful

theorem run_sound (sound : cluster.Sound platform.json.toJson) (events : List (ClusterEvent ι)) :
    (cluster.run platform events).Sound platform.json.toJson := by
  induction events generalizing cluster with
  | nil => exact sound
  | cons event rest ih => exact ih ((step_stepped printed lawful sound).sound printed sound)

/-- Whatever the nodes do in whatever order, and whatever fails: every entry that is
anywhere in the cluster was there at the start or was written in the run. -/
theorem run_holds (sound : cluster.Sound platform.json.toJson) (events : List (ClusterEvent ι))
    {entry : FileEntry} (held : (cluster.run platform events).Holds platform.json.toJson entry) :
    cluster.Holds platform.json.toJson entry ∨ entry ∈ cluster.written platform events := by
  induction events generalizing cluster with
  | nil => exact .inl held
  | cons event rest ih =>
      have stepped : Stepped platform cluster (cluster.step platform event) event :=
        step_stepped printed lawful sound
      rw [written, List.mem_append]
      rcases ih (stepped.sound printed sound) held with before | later
      · rcases stepped.holds before with start | written
        · exact .inl start
        · exact .inr (.inl (Option.mem_toList.mpr written))
      · exact .inr (.inr later)

end Runs

/-- Whatever the nodes do in whatever order, and whatever fails: what a node holds for a
name, in its memory or in the file it would load after a restart, and what it would
send to a peer, is an entry of that name that was there at the start or was written by a
`put_file` or `delete_file` of the run. -/
theorem registries_hold_what_was_written [DecidableEq ι] (platform : Platform)
    (printed : platform.hemera.toHex = hexText) (lawful : platform.json.Lawful)
    (cluster : Cluster ι) (sound : cluster.Sound platform.json.toJson)
    (events : List (ClusterEvent ι)) (place : ι) (registry : GSet)
    (shown : let node := (cluster.run platform events).nodes place
      registry = node.state.registry ∨
        SyncNode.loadRegistry platform.json.toJson node = some registry ∨
        node.servedRegistry platform.json.toJson = some registry)
    (name : String) (entry : FileEntry) (held : registry.getRaw name = some entry) :
    entry.name = name ∧
      (cluster.Holds platform.json.toJson entry ∨ entry ∈ cluster.written platform events) := by
  have lastSound := run_sound printed lawful sound events
  have member : entry ∈ registry.values := GSet.mem_values.mpr ⟨name, held⟩
  rcases shown with rfl | loaded | served
  · exact ⟨lastSound.keyed place name entry held,
      run_holds printed lawful sound events (.memory place member)⟩
  · exact ⟨lastSound.storedKeyed place registry loaded name entry held,
      run_holds printed lawful sound events (.stored place registry loaded member)⟩
  · refine ⟨?_, run_holds printed lawful sound events (holds_served served member)⟩
    rw [SyncNode.servedRegistry] at served
    split_ifs at served
    · exact lastSound.storedKeyed place registry served name entry held
    · rw [← Option.some.inj served] at held
      exact lastSound.keyed place name entry held

end Cluster

/-! ## What is saved lasts -/

namespace SyncNode

variable {hemera : Hemera} {nebu : Nebu} {merkle : HemeraTree} {json : WireJson} {now : UInt64}
  {name : String} {data : List UInt8} {node after : SyncNode}

theorem putFile_saved (lawful : json.Lawful)
    (put : putFile hemera nebu merkle json.toJson now name data node = (.ok (), after)) :
    loadRegistry json.toJson after = some after.state.registry := by
  obtain ⟨-, hashes, between, -, saved⟩ := putFile_steps put
  rw [loadRegistry_of_saved lawful.toLawful saved, saveRegistry_ok saved]

theorem deleteFile_saved
    (deleted : deleteFile hemera json.toJson now name node = (.ok (), after)) :
    ∃ existing, node.state.registry.getRaw name = some existing ∧
      saveRegistry json.toJson
        (node.register (tombstone hemera node.state existing name now)) = (.ok (), after) := by
  rw [deleteFile, Action.get_bind] at deleted
  cases held : node.state.registry.getRaw name with
  | none =>
      rw [held] at deleted
      cases deleted
  | some existing =>
      rw [held] at deleted
      dsimp only at deleted
      split_ifs at deleted
      · cases deleted
      · exact ⟨existing, rfl, deleted⟩

end SyncNode

namespace Cluster

variable {ι : Type} [DecidableEq ι] {platform : Platform} {cluster after : Cluster ι}
  {event : ClusterEvent ι}

/-- The call of the step returns `Ok`, and it is one that saves the registry. -/
inductive Saves (platform : Platform) (cluster : Cluster ι) : ClusterEvent ι → ι → Prop where
  | put {place : ι} {now : UInt64} {name : String} {data : List UInt8}
      (returned : (SyncNode.putFile platform.hemera platform.nebu platform.merkle
        platform.json.toJson now name data (cluster.nodes place)).1 = .ok ()) :
      Saves platform cluster (.put place now name data) place
  | delete {place : ι} {now : UInt64} {name : String}
      (returned : (SyncNode.deleteFile platform.hemera platform.json.toJson now name
        (cluster.nodes place)).1 = .ok ()) :
      Saves platform cluster (.delete place now name) place
  | sync {label : Nat} {peer : String} {exchange : Exchange} {place : ι}
      {response : RegistryResponse} (received : cluster.responses label = some (place, response))
      (returned : (SyncNode.settleResponse platform.hemera platform.json.toJson peer exchange
        response (cluster.nodes place)).1 = .ok ()) :
      Saves platform cluster (.settle label peer exchange) place

section Lasts

variable {place : ι} {stored : GSet} {entry : FileEntry}

theorem deliver_nodes {label : Nat} {response : RegistryResponse}
    {call : RegistryResponse → Action SyncNode String Unit}
    (received : cluster.responses label = some (place, response)) :
    (cluster.deliver label call).nodes place = (call response (cluster.nodes place)).2 := by
  rw [deliver, received]
  exact Function.update_self ..

theorem act_self {α : Type} (action : Action SyncNode String α) :
    (cluster.act place action).nodes place = (action (cluster.nodes place)).2 :=
  Function.update_self ..

theorem Saves.loaded (printed : platform.hemera.toHex = hexText) (lawful : platform.json.Lawful)
    (saves : Saves platform cluster event place) :
    SyncNode.loadRegistry platform.json.toJson ((cluster.step platform event).nodes place) =
      some ((cluster.step platform event).nodes place).state.registry := by
  cases saves with
  | put returned =>
      rw [step, act_self]
      exact SyncNode.putFile_saved lawful (Action.eq_of_fst_ok returned)
  | delete returned =>
      rw [step, act_self]
      obtain ⟨existing, -, saved⟩ := SyncNode.deleteFile_saved (Action.eq_of_fst_ok returned)
      rw [SyncNode.loadRegistry_of_saved lawful.toLawful saved, SyncNode.saveRegistry_ok saved]
  | sync received returned =>
      rw [step, deliver_nodes received]
      exact (SyncNode.settleResponse_ok printed lawful (Action.eq_of_fst_ok returned)).1

/-- What is written is held, or something newer is. -/
theorem Saves.holds (saves : Saves platform cluster event place)
    (written : cluster.writes platform event = some entry) :
    (entry.stamp : WithBot Stamp) ≤
      ((cluster.step platform event).nodes place).state.registry.rank entry.name := by
  cases saves with
  | put returned =>
      cases written
      rw [step, act_self, (SyncNode.putFile_ok (Action.eq_of_fst_ok returned)).2]
      exact GSet.lwwInsert_rank_self _ _
  | @delete _ now name returned =>
      obtain ⟨existing, held, saved⟩ := SyncNode.deleteFile_saved (Action.eq_of_fst_ok returned)
      rw [writes, held] at written
      cases written
      rw [step, act_self, SyncNode.saveRegistry_ok saved]
      exact GSet.lwwInsert_rank_self _ _
  | sync received returned => cases written

variable (printed : platform.hemera.toHex = hexText) (lawful : platform.json.Lawful)
include printed lawful

theorem run_lasts (sound : cluster.Sound platform.json.toJson) (whole : (cluster.nodes place).Whole)
    (loaded : SyncNode.loadRegistry platform.json.toJson (cluster.nodes place) = some stored)
    (events : List (ClusterEvent ι)) :
    ∃ later, SyncNode.loadRegistry platform.json.toJson
        ((cluster.run platform events).nodes place) = some later ∧
      ∀ name, stored.rank name ≤ later.rank name := by
  induction events generalizing cluster stored with
  | nil => exact ⟨stored, loaded, fun _ => le_rfl⟩
  | cons event rest ih =>
      have stepped : Stepped platform cluster (cluster.step platform event) event :=
        step_stepped printed lawful sound
      obtain ⟨still, next, now, above⟩ := stepped.lasts sound whole loaded
      obtain ⟨later, last, more⟩ := ih (stepped.sound printed sound) still now
      exact ⟨later, last, fun name => (above name).trans (more name)⟩

theorem run_whole (sound : cluster.Sound platform.json.toJson) (whole : (cluster.nodes place).Whole)
    (events : List (ClusterEvent ι)) : ((cluster.run platform events).nodes place).Whole := by
  induction events generalizing cluster with
  | nil => exact whole
  | cons event rest ih =>
      have stepped : Stepped platform cluster (cluster.step platform event) event :=
        step_stepped printed lawful sound
      refine ih (stepped.sound printed sound) ?_
      rcases stepped.nodes place with moves | ⟨registry, -, moved⟩
      · intro room full
        rw [moves.obstacle, moves.path] at full
        exact whole room full
      · rw [moved]
        exact whole

end Lasts

/-- What a node holds when a `put_file`, `delete_file` or `sync_with` returns `Ok`, the
entry just written included, it holds from then on, or something newer: in its memory
and in what a restart loads, whatever is called afterwards at any node, whatever fails,
and however often the node is restarted, unless its device runs full inside
`registry.json`. -/
theorem saved_registry_lasts (platform : Platform) (printed : platform.hemera.toHex = hexText)
    (lawful : platform.json.Lawful) (cluster : Cluster ι)
    (sound : cluster.Sound platform.json.toJson) (earlier later : List (ClusterEvent ι))
    (event : ClusterEvent ι) (place : ι) (whole : (cluster.nodes place).Whole)
    (saves : Saves platform (cluster.run platform earlier) event place) :
    let saved := ((cluster.run platform (earlier ++ [event])).nodes place).state.registry
    let last := (cluster.run platform (earlier ++ event :: later)).nodes place
    (∀ entry, (cluster.run platform earlier).writes platform event = some entry →
      (entry.stamp : WithBot Stamp) ≤ saved.rank entry.name) ∧
    ∃ stored, SyncNode.loadRegistry platform.json.toJson last = some stored ∧
      ∀ name, saved.rank name ≤ stored.rank name ∧
        stored.rank name ≤ last.state.registry.rank name := by
  intro saved last
  have before := run_sound printed lawful sound earlier
  have stillWhole := run_whole printed lawful sound whole (earlier ++ [event])
  have upTo : cluster.run platform (earlier ++ [event]) =
      (cluster.run platform earlier).step platform event := run_append ..
  have after : cluster.run platform (earlier ++ event :: later) =
      (cluster.run platform (earlier ++ [event])).run platform later := by
    rw [upTo]
    exact run_append ..
  have soundThen := run_sound printed lawful sound (earlier ++ [event])
  have loaded : SyncNode.loadRegistry platform.json.toJson
      ((cluster.run platform (earlier ++ [event])).nodes place) = some saved := by
    have now := saves.loaded printed lawful
    rwa [← upTo] at now
  refine ⟨fun entry written => ?_, ?_⟩
  · have held := saves.holds written
    rwa [← upTo] at held
  · obtain ⟨stored, last, above⟩ := run_lasts printed lawful soundThen stillWhole loaded later
    rw [← after] at last
    refine ⟨stored, last, fun name => ⟨above name, ?_⟩⟩
    exact (run_sound printed lawful sound _).behind place stored last name

/-! ## Nodes that have exchanged their registries -/

/-- In the run, the node asks the peer for its registry, and a later `sync_with` returns
and rejects no entry of the response. -/
inductive Exchanged (platform : Platform) (cluster : Cluster ι) (events : List (ClusterEvent ι))
    (place peer : ι) : Prop where
  | intro (before between later : List (ClusterEvent ι)) (label : Nat) (address : String)
      (exchange : Exchange) (response : RegistryResponse) (total : Nat)
      (split : events = before ++ .request label place peer :: (between ++
        .settle label address exchange :: later))
      (answered : fetchRegistryWithProof platform.json platform.foreign
        (((cluster.run platform before).nodes peer).handleConnection platform.hemera
          platform.json.toJson registryRequest) = .ok response)
      (pending : (cluster.run platform (before ++ .request label place peer :: between)).responses
        label = some (place, response))
      (returned : (SyncNode.settleResponse platform.hemera platform.json.toJson address exchange
        response ((cluster.run platform
          (before ++ .request label place peer :: between)).nodes place)).1 = .ok ())
      (rejects : (GSet.validatedMergeAt platform.hemera (exchange.readings response) (0, 0)
        ((cluster.run platform (before ++ .request label place peer :: between)).nodes
          place).state.registry).1 = .ok (total, 0)) :
      Exchanged platform cluster events place peer

section Exchanged

variable {place peer : ι} {stored : GSet} {events : List (ClusterEvent ι)}

/-- A merge that rejects nothing makes the registry as new as the response. -/
theorem merged_rank {hemera : Hemera} {exchange : Exchange} {response : RegistryResponse}
    {registry : GSet} {total : Nat} (keyed : response.registry.Keyed)
    (merged : (GSet.validatedMergeAt hemera (exchange.readings response) (0, 0) registry).1 =
      .ok (total, 0)) :
    (GSet.validatedMergeAt hemera (exchange.readings response) (0, 0) registry).2.rank =
      registry.rank ⊔ response.registry.rank := by
  have all := (GSet.accepted_of_none_rejected merged).2 rfl
  have walked : (exchange.readings response).map Prod.fst =
      exchange.received.order response.registry := by
    rw [Exchange.readings, List.map_map]
    exact List.zipIdx_map_fst 0 _
  rw [GSet.validatedMergeAt_eq_merge, all, walked]
  funext name
  rw [GSet.merge_rank, GSet.foldr_stamp_of_iterates keyed (exchange.received.iterates _),
    Pi.sup_apply]

variable (printed : platform.hemera.toHex = hexText) (lawful : platform.json.Lawful)
include printed lawful

/-- What the peer has stored at the start has reached the store of the node at the end. -/
theorem Exchanged.reaches (sound : cluster.Sound platform.json.toJson)
    (wholePlace : (cluster.nodes place).Whole) (wholePeer : (cluster.nodes peer).Whole)
    (loaded : SyncNode.loadRegistry platform.json.toJson (cluster.nodes peer) = some stored)
    (exchanged : Exchanged platform cluster events place peer) :
    ∃ last, SyncNode.loadRegistry platform.json.toJson
        ((cluster.run platform events).nodes place) = some last ∧
      ∀ name, stored.rank name ≤ last.rank name := by
  obtain ⟨before, between, later, label, address, exchange, response, total, rfl, answered, pending,
    returned, rejects⟩ := exchanged
  -- The response is as new as what the peer has stored at the request.
  obtain ⟨asked, askedLoaded, askedAbove⟩ := run_lasts printed lawful sound wholePeer loaded before
  obtain ⟨registry, served, rfl, -⟩ := (SyncNode.fetchRegistry_handled lawful).mp answered
  have sent := served_rank_le (run_sound printed lawful sound before) askedLoaded served
  -- The merge takes all of it over and saves it.
  have soundThen := run_sound printed lawful sound (before ++ .request label place peer :: between)
  have merged := merged_rank (soundThen.receivedKeyed label place _ pending) rejects
  obtain ⟨saved, settled⟩ :=
    SyncNode.settleResponse_ok printed lawful (Action.eq_of_fst_ok returned)
  have node : ((cluster.run platform (before ++ .request label place peer :: between)).step platform
      (.settle label address exchange)).nodes place = _ := deliver_nodes pending
  rw [← node] at saved settled
  -- From there on it lasts.
  have stepped : Stepped platform
      (cluster.run platform (before ++ .request label place peer :: between))
      ((cluster.run platform (before ++ .request label place peer :: between)).step platform
        (.settle label address exchange)) (.settle label address exchange) :=
    step_stepped printed lawful soundThen
  have whole := run_whole printed lawful sound wholePlace
    (before ++ .request label place peer :: (between ++ [.settle label address exchange]))
  have upTo : cluster.run platform
      (before ++ .request label place peer :: (between ++ [.settle label address exchange])) =
      (cluster.run platform (before ++ .request label place peer :: between)).step platform
        (.settle label address exchange) := by
    rw [← List.cons_append, ← List.append_assoc]
    exact run_append ..
  rw [upTo] at whole
  obtain ⟨last, lastLoaded, lastAbove⟩ :=
    run_lasts printed lawful (stepped.sound printed soundThen) whole saved later
  have after : cluster.run platform (before ++ .request label place peer ::
      (between ++ .settle label address exchange :: later)) =
      ((cluster.run platform (before ++ .request label place peer :: between)).step platform
        (.settle label address exchange)).run platform later := by
    rw [← List.cons_append, ← List.append_assoc]
    exact run_append ..
  rw [after]
  refine ⟨last, lastLoaded, fun name => ?_⟩
  calc stored.rank name ≤ asked.rank name := askedAbove name
    _ ≤ registry.rank name := sent name
    _ ≤ _ ⊔ registry.rank name := le_sup_right
    _ = _ := by rw [settled, merged, Pi.sup_apply]
    _ ≤ last.rank name := lastAbove name

end Exchanged

section Example

def standIn : Platform where
  hemera := .truncating
  nebu := naiveNebu
  merkle := .truncating
  json := unary
  foreign := "connection lost"

def noted : FileEntry := SyncNode.note ["x"] 5 false

def keeper : SyncNode := (SyncNode.saveRegistry unary.toJson (SyncNode.home.register noted)).2

/-- One node has saved a note, the other one has just been started. -/
def pair : Cluster Bool where
  nodes place := if place then keeper else SyncNode.home
  responses _ := none

theorem keeper_written : SyncNode.saveRegistry unary.toJson (SyncNode.home.register noted) =
    (.ok (), keeper) := by
  have saved : (SyncNode.saveRegistry unary.toJson (SyncNode.home.register noted)).1 = .ok () := by
    decide +kernel
  exact Action.eq_of_fst_ok saved

theorem keeper_saved : SyncNode.loadRegistry unary.toJson keeper =
    some (SyncNode.home.register noted).state.registry :=
  SyncNode.loadRegistry_of_saved unary_lawful.toLawful keeper_written

theorem keeper_state : keeper.state = (SyncNode.home.register noted).state :=
  SyncNode.saveRegistry_ok keeper_written

theorem home_saved : SyncNode.loadRegistry unary.toJson SyncNode.home =
    some SyncNode.home.state.registry := by
  rw [SyncNode.loadRegistry, if_neg (by decide)]
  rfl

theorem pair_saved (place : Bool) : SyncNode.loadRegistry standIn.json.toJson (pair.nodes place) =
    some (pair.nodes place).state.registry := by
  cases place with
  | true =>
      change SyncNode.loadRegistry unary.toJson keeper = some keeper.state.registry
      rw [keeper_saved, keeper_state]
  | false => exact home_saved

theorem pair_sound : pair.Sound standIn.json.toJson := by
  refine sound_of_saved ?_ pair_saved (fun _ => rfl) ?_
  · intro place
    cases place with
    | true =>
        change keeper.state.registry.Keyed
        rw [keeper_state]
        exact GSet.lwwInsert_keyed GSet.new_keyed noted
    | false => exact GSet.new_keyed
  · intro place entry member
    cases place with
    | true =>
        change entry ∈ keeper.state.registry.values at member
        rw [keeper_state] at member
        change entry ∈ (GSet.new.insert noted).values at member
        rw [SyncNode.values_insert_new, List.mem_singleton] at member
        cases member
        intro hash listed
        cases List.mem_singleton.mp listed
        exact ⟨by decide, by decide, by decide⟩
    | false =>
        change entry ∈ GSet.new.values at member
        simp [GSet.values, GSet.new] at member

theorem pair_whole (place : Bool) : (pair.nodes place).Whole := by
  intro room full
  cases place with
  | true =>
      change keeper.tree.obstacle _ = _ at full
      rw [keeper, SyncNode.saveRegistry, Action.get_bind, SyncNode.onTree_snd] at full
      dsimp only at full
      rw [(FileTree.write_touches _ _ _).obstacle] at full
      cases full
  | false => cases full

def todo : FileEntry :=
  SyncNode.putEntry standIn.hemera standIn.nebu standIn.merkle (pair.nodes false).state 7 "todo" [7]

theorem todo_put : (SyncNode.putFile standIn.hemera standIn.nebu standIn.merkle
    standIn.json.toJson 7 "todo" [7] (pair.nodes false)).1 = .ok () := by
  have put : (SyncNode.putFile .truncating naiveNebu .truncating unary.toJson 7 "todo" [7]
      SyncNode.home).1 = .ok () := by
    rw [naiveNebu_eq]
    decide +kernel
  exact put

theorem todo_name : todo.name = "todo" := by
  rw [todo, SyncNode.putEntry, SyncNode.fileEntry]

/-- Asking first does not change what is put. -/
theorem run_request_put (label : Nat) (place peer : ι) (now : UInt64) (name : String)
    (data : List UInt8) :
    (cluster.run platform [.request label place peer, .put place now name data]).nodes place =
      (SyncNode.putFile platform.hemera platform.nebu platform.merkle platform.json.toJson now name
        data (cluster.nodes place)).2 := by
  have split : cluster.run platform [.request label place peer, .put place now name data] =
      (cluster.request platform label place peer).act place
        (SyncNode.putFile platform.hemera platform.nebu platform.merkle platform.json.toJson now
          name data) := rfl
  rw [split, act_self, request_nodes]

theorem todo_held : ((pair.run standIn [.request 0 false true,
    .put false 7 "todo" [7]]).nodes false).state.registry.getRaw todo.name = some todo := by
  rw [run_request_put, (SyncNode.putFile_ok (Action.eq_of_fst_ok todo_put)).2, ← todo]
  apply GSet.getRaw_insert_newer
  intro existing found
  have bare : (pair.nodes false).state.registry = .new := rfl
  simp [GSet.getRaw, bare, GSet.new] at found

theorem registries_hold_what_was_written_todo :
    todo.name = "todo" ∧ (pair.Holds standIn.json.toJson todo ∨
      todo ∈ pair.written standIn [.request 0 false true, .put false 7 "todo" [7]]) := by
  have held := todo_held
  rw [todo_name] at held
  exact registries_hold_what_was_written standIn rfl unary_lawful pair pair_sound _ false _
    (.inl rfl) "todo" todo held

theorem saved_registry_lasts_todo :
    (todo.stamp : WithBot Stamp) ≤ ((pair.run standIn
      [.put false 7 "todo" [7], .request 0 false true, .restart false]).nodes
        false).state.registry.rank "todo" := by
  obtain ⟨held, stored, -, above⟩ := saved_registry_lasts standIn rfl unary_lawful pair pair_sound []
    [.request 0 false true, .restart false] (.put false 7 "todo" [7]) false (pair_whole false)
    (.put todo_put)
  have written : (pair.run standIn []).writes standIn (.put false 7 "todo" [7]) = some todo := by
    rw [writes]
    rfl
  have lasts := (held todo written).trans ((above todo.name).1.trans (above todo.name).2)
  rwa [todo_name, List.nil_append] at lasts

/-- A peer that has no chunks, met at clock 1000. -/
def meeting : Exchange := SyncNode.offering noted "" none

def sent (asked : Bool) : RegistryResponse where
  registry := (pair.nodes asked).state.registry
  merkleRoot := GSet.merkleRoot standIn.hemera (pair.nodes asked).state.registry.values

/-- Both responses are underway. -/
def asked : Cluster Bool where
  nodes := pair.nodes
  responses := Function.update (Function.update (fun _ => none) 0 (some (false, sent true))) 1
    (some (true, sent false))

/-- Each asks the other one, and both then merge what they were sent. -/
def swap : List (ClusterEvent Bool) :=
  [.request 0 false true, .request 1 true false, .settle 0 "" meeting, .settle 1 "" meeting]

end Example

end Cluster

end Foculus.Sync

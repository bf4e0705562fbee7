import Foculus.Store.Compaction
import Foculus.Sync.Exchange

namespace Foculus.Sync

open Data Store

/-! # When tombstones may be dropped (`compact` and `merge` of `GSet` between devices)

Devices write entries, exchange whole registries or what is new in them, and now and then
compact.  What has been sent is known by a label and may arrive late, twice or never.
-/

structure Replicas (ι : Type) where
  registries : ι → GSet
  sent : Nat → Option GSet

inductive ReplicaEvent (ι : Type) where
  | write (place : ι) (entry : FileEntry)
  | send (label : Nat) (place : ι)
  | sendDelta (label : Nat) (place : ι) (since : UInt64) (walk : Walk)
  | receive (place : ι) (label : Nat) (walk : Walk)
  | discard (label : Nat)
  | compact (place : ι) (now maxAgeMs : UInt64)

namespace ReplicaEvent

variable {ι : Type}

def isCompact : ReplicaEvent ι → Bool
  | .compact .. => true
  | _ => false

/-- What a `compact` drops is older than this. -/
def horizon : ReplicaEvent ι → Nat
  | .compact _ now maxAgeMs => now.toNat - maxAgeMs.toNat
  | _ => 0

end ReplicaEvent

/-- The events other than `compact`. -/
def uncompacted {ι : Type} (events : List (ReplicaEvent ι)) : List (ReplicaEvent ι) :=
  events.filter (!·.isCompact)

namespace Replicas

variable {ι : Type} [DecidableEq ι]

def update (replicas : Replicas ι) (place : ι) (registry : GSet) : Replicas ι :=
  { replicas with registries := Function.update replicas.registries place registry }

def post (replicas : Replicas ι) (label : Nat) (message : Option GSet) : Replicas ι :=
  { replicas with sent := Function.update replicas.sent label message }

def step (replicas : Replicas ι) : ReplicaEvent ι → Replicas ι
  | .write place entry => replicas.update place ((replicas.registries place).insert entry)
  | .send label place => replicas.post label (some (replicas.registries place))
  | .sendDelta label place since walk => replicas.post label
      (some (GSet.deltaSince since (walk.order (replicas.registries place))))
  | .receive place label walk =>
      match replicas.sent label with
      | none => replicas
      | some offered =>
          replicas.update place ((replicas.registries place).merge (walk.order offered))
  | .discard label => replicas.post label none
  | .compact place now maxAgeMs =>
      replicas.update place (GSet.compact now maxAgeMs (replicas.registries place)).1

def run (replicas : Replicas ι) (events : List (ReplicaEvent ι)) : Replicas ι :=
  events.foldl step replicas

/-- What any `compact` of the events drops is older than this. -/
def horizonAfter (horizon : Nat) (events : List (ReplicaEvent ι)) : Nat :=
  events.foldl (fun horizon event => max horizon event.horizon) horizon

/-- Some device or message holds the entry under the name. -/
def Holds (replicas : Replicas ι) (name : String) (entry : FileEntry) : Prop :=
  (∃ place, (replicas.registries place).getRaw name = some entry) ∨
    ∃ label registry, replicas.sent label = some registry ∧ registry.getRaw name = some entry

/-- A `compact` is in time when every live entry that is left for a name is newer than the
tombstone it drops; a write is in time when it is not stamped before an earlier `compact`
by more than the age that was given to it. -/
def InTime (horizon : Nat) (replicas : Replicas ι) : ReplicaEvent ι → Prop
  | .write _ entry => horizon ≤ entry.timestamp.toNat
  | .compact place now maxAgeMs => ∀ name tomb,
      (replicas.registries place).getRaw name = some tomb →
      GSet.outdated now maxAgeMs tomb = true →
      ∀ entry, replicas.Holds name entry → entry.deleted = false → tomb.stamp < entry.stamp
  | _ => True

/-- Every event is in time when its turn comes. -/
def Careful (horizon : Nat) (replicas : Replicas ι) : List (ReplicaEvent ι) → Prop
  | [] => True
  | event :: rest => replicas.InTime horizon event ∧
      (replicas.step event).Careful (max horizon event.horizon) rest

structure Keyed (replicas : Replicas ι) : Prop where
  registries : ∀ place, (replicas.registries place).Keyed
  sent : ∀ label registry, replicas.sent label = some registry → registry.Keyed

/-! ## The same devices without `compact` -/

section Shadow

/-- The tombstones that may have been dropped. -/
def old (horizon : Nat) : Set FileEntry := {entry | entry.timestamp.toNat < horizon}

def Live (entry : FileEntry) : Prop := entry.deleted = false

/-- A registry against the one that would be there without `compact`. -/
structure Shadows (horizon : Nat) (about : String → Set FileEntry) (shown full : GSet) : Prop where
  shownKeyed : shown.Keyed
  fullKeyed : full.Keyed
  slots : ∀ name, Shows FileEntry.stamp Live (old horizon) (about name) (shown.getRaw name)
    (full.getRaw name)

variable {horizon later : Nat} {about wider : String → Set FileEntry} {shown full : GSet}
  {name : String} {entry : FileEntry}

theorem old_mono (early : horizon ≤ later) : old horizon ⊆ old later :=
  fun _ before => lt_of_lt_of_le before early

theorem Shadows.mono (shadows : Shadows horizon about shown full) (early : horizon ≤ later)
    (few : ∀ name, ∀ tomb ∈ old horizon, ∀ entry ∈ wider name, Live entry →
      entry ∈ about name ∨ tomb.stamp < entry.stamp) : Shadows later wider shown full where
  shownKeyed := shadows.shownKeyed
  fullKeyed := shadows.fullKeyed
  slots name := (shadows.slots name).mono (old_mono early) (few name)

theorem Shadows.get_eq (shadows : Shadows horizon about shown full) (name : String) :
    shown.get name = full.get name := by
  have same := (shadows.slots name).live_iff
  have view (registry : GSet) (entry : FileEntry) : registry.get name = some entry ↔
      registry.getRaw name = some entry ∧ Live entry := by
    rw [GSet.get, Option.filter_eq_some_iff, GSet.getRaw, Live, Bool.not_eq_true']
  refine Option.ext fun entry => ?_
  rw [view, view]
  exact same entry

theorem Shadows.insert (shadows : Shadows horizon about shown full)
    (known : ∀ name entry, shown.getRaw name = some entry → entry ∈ about name)
    (fresh : entry ∈ about entry.name) :
    Shadows horizon about (shown.insert entry) (full.insert entry) where
  shownKeyed := GSet.lwwInsert_keyed shadows.shownKeyed entry
  fullKeyed := GSet.lwwInsert_keyed shadows.fullKeyed entry
  slots name := by
    rw [GSet.insert_getRaw, GSet.insert_getRaw]
    refine (shadows.slots name).lww .same (known name) fun version offered => ?_
    split_ifs at offered with here
    cases offered
    rwa [← here]

theorem Shadows.merge {offered offeredFull : GSet} (shadows : Shadows horizon about shown full)
    (offers : Shadows horizon about offered offeredFull)
    (known : ∀ name entry, shown.getRaw name = some entry → entry ∈ about name)
    (offeredKnown : ∀ name entry, offered.getRaw name = some entry → entry ∈ about name)
    (walk : Walk) : Shadows horizon about (shown.merge (walk.order offered))
      (full.merge (walk.order offeredFull)) where
  shownKeyed := GSet.merge_keyed shadows.shownKeyed _
  fullKeyed := GSet.merge_keyed shadows.fullKeyed _
  slots name := by
    rw [GSet.merge_getRaw_of_iterates offers.shownKeyed (walk.iterates _),
      GSet.merge_getRaw_of_iterates offers.fullKeyed (walk.iterates _)]
    exact (shadows.slots name).lww (offers.slots name) (known name) (offeredKnown name)

theorem timestamp_le {early late : FileEntry} (below : early.stamp ≤ late.stamp) :
    early.timestamp ≤ late.timestamp := by
  rw [UInt64.le_iff_toNat_le]
  rcases Prod.Lex.toLex_le_toLex.mp below with before | ⟨same, -⟩
  · exact before.le
  · exact same.le

theorem Shadows.delta (shadows : Shadows horizon about shown full) (since : UInt64) (walk : Walk) :
    Shadows horizon about (GSet.deltaSince since (walk.order shown))
      (GSet.deltaSince since (walk.order full)) where
  shownKeyed := GSet.deltaSince_keyed _ _
  fullKeyed := GSet.deltaSince_keyed _ _
  slots name := by
    rw [GSet.deltaSince_getRaw shadows.shownKeyed (walk.iterates _),
      GSet.deltaSince_getRaw shadows.fullKeyed (walk.iterates _)]
    refine (shadows.slots name).filter fun early late below newer => ?_
    exact decide_eq_true (UInt64.lt_of_lt_of_le (of_decide_eq_true newer) (timestamp_le below))

theorem Shadows.compact (shadows : Shadows horizon about shown full) (now maxAgeMs : UInt64)
    (outlived : ∀ name tomb, shown.getRaw name = some tomb → GSet.outdated now maxAgeMs tomb = true →
      Outlived FileEntry.stamp Live (old horizon) (about name) tomb) :
    Shadows horizon about (GSet.compact now maxAgeMs shown).1 full where
  shownKeyed := GSet.compact_keyed shadows.shownKeyed now maxAgeMs
  fullKeyed := shadows.fullKeyed
  slots name := by
    rw [GSet.compact_getRaw]
    have slot := shadows.slots name
    cases held : shown.getRaw name with
    | none =>
        rw [held] at slot
        exact slot
    | some entry =>
        rw [held] at slot
        rw [Option.filter_some]
        split_ifs with stays
        · exact slot
        · have gone : GSet.outdated now maxAgeMs entry = true := by simpa using stays
          exact slot.drop rfl (outlived name entry held gone)

end Shadow

section Runs

variable {horizon later : Nat} {known wider : String → Set FileEntry} {replicas full : Replicas ι}
  {event : ReplicaEvent ι} {place : ι} {registry offered : GSet} {name : String} {entry : FileEntry}

theorem outdated_old {now maxAgeMs : UInt64} (gone : GSet.outdated now maxAgeMs entry = true) :
    entry.deleted = true ∧ entry.timestamp.toNat < now.toNat - maxAgeMs.toNat := by
  rw [GSet.outdated, Bool.and_eq_true, decide_eq_true_eq] at gone
  refine ⟨gone.1, ?_⟩
  have aged := UInt64.lt_iff_toNat_lt.mp gone.2
  rw [satSub_toNat] at aged
  omega

/-- The entry of a write. -/
def introduced : ReplicaEvent ι → String → Set FileEntry
  | .write _ entry, name => {new | new = entry ∧ entry.name = name}
  | _, _ => ∅

theorem holds_update (holds : (replicas.update place registry).Holds name entry) :
    replicas.Holds name entry ∨ registry.getRaw name = some entry := by
  rcases holds with ⟨other, held⟩ | sent
  · rw [update] at held
    dsimp only at held
    by_cases here : other = place
    · rw [here, Function.update_self] at held
      exact .inr held
    · rw [Function.update_of_ne here] at held
      exact .inl (.inl ⟨other, held⟩)
  · exact .inl (.inr sent)

omit [DecidableEq ι] in
theorem holds_post {label : Nat} {message : Option GSet}
    (holds : (replicas.post label message).Holds name entry) : replicas.Holds name entry ∨
      ∃ registry, message = some registry ∧ registry.getRaw name = some entry := by
  rcases holds with held | ⟨other, registry, sent, held⟩
  · exact .inl (.inl held)
  · rw [post] at sent
    dsimp only at sent
    by_cases here : other = label
    · rw [here, Function.update_self] at sent
      exact .inr ⟨registry, sent, held⟩
    · rw [Function.update_of_ne here] at sent
      exact .inl (.inr ⟨other, registry, sent, held⟩)

/-- No event but a write brings an entry about. -/
theorem held_step (keyed : replicas.Keyed) (holds : (replicas.step event).Holds name entry) :
    replicas.Holds name entry ∨ entry ∈ introduced event name := by
  cases event with
  | write place written =>
      rcases holds_update holds with before | new
      · exact .inl before
      · rw [GSet.insert_getRaw] at new
        rcases lww_eq_some _ new with here | there
        · exact .inl (.inl ⟨place, here⟩)
        · split_ifs at there with named
          cases there
          exact .inr ⟨rfl, named⟩
  | send label place =>
      rcases holds_post holds with before | ⟨registry, new, held⟩
      · exact .inl before
      · cases new
        exact .inl (.inl ⟨place, held⟩)
  | sendDelta label place since walk =>
      rcases holds_post holds with before | ⟨registry, new, held⟩
      · exact .inl before
      · cases new
        rw [GSet.deltaSince_getRaw (keyed.registries place) (walk.iterates _)] at held
        exact .inl (.inl ⟨place, (Option.filter_eq_some_iff.mp held).1⟩)
  | receive place label walk =>
      rw [step] at holds
      cases found : replicas.sent label with
      | none =>
          rw [found] at holds
          exact .inl holds
      | some offered =>
          rw [found] at holds
          rcases holds_update holds with before | new
          · exact .inl before
          · rw [GSet.merge_getRaw_of_iterates (keyed.sent label offered found)
              (walk.iterates _)] at new
            rcases lww_eq_some _ new with here | there
            · exact .inl (.inl ⟨place, here⟩)
            · exact .inl (.inr ⟨label, offered, found, there⟩)
  | discard label =>
      rcases holds_post holds with before | ⟨registry, new, -⟩
      · exact .inl before
      · cases new
  | compact place now maxAgeMs =>
      rcases holds_update holds with before | new
      · exact .inl before
      · rw [GSet.compact_getRaw] at new
        exact .inl (.inl ⟨place, (Option.filter_eq_some_iff.mp new).1⟩)

/-- The entries that are held for a name anywhere. -/
def about (replicas : Replicas ι) (name : String) : Set FileEntry := {entry | replicas.Holds name entry}

/-- Every device and every message against what it would be without `compact`. -/
structure Alike (horizon : Nat) (known : String → Set FileEntry) (replicas full : Replicas ι) :
    Prop where
  registries : ∀ place, Shadows horizon known (replicas.registries place) (full.registries place)
  sent : ∀ label, Option.Rel (Shadows horizon known) (replicas.sent label) (full.sent label)

omit [DecidableEq ι] in
theorem Alike.mono (alike : Alike horizon known replicas full) (early : horizon ≤ later)
    (few : ∀ name, ∀ tomb ∈ old horizon, ∀ entry ∈ wider name, Live entry →
      entry ∈ known name ∨ tomb.stamp < entry.stamp) : Alike later wider replicas full where
  registries place := (alike.registries place).mono early few
  sent label := by
    have sent := alike.sent label
    generalize replicas.sent label = shown, full.sent label = whole at sent ⊢
    cases sent with
    | some shadows => exact .some (shadows.mono early few)
    | none => exact .none

omit [DecidableEq ι] in
theorem Alike.keyed (alike : Alike horizon known replicas full) : replicas.Keyed where
  registries place := (alike.registries place).shownKeyed
  sent label registry found := by
    have sent := alike.sent label
    generalize full.sent label = whole at sent
    rw [found] at sent
    cases sent with
    | some shadows => exact shadows.shownKeyed

/-- One side changes a registry. -/
theorem Alike.update_left {shown : GSet} (alike : Alike horizon known replicas full)
    (shadows : Shadows horizon known shown (full.registries place)) :
    Alike horizon known (replicas.update place shown) full where
  registries other := by
    rw [Replicas.update]
    dsimp only
    by_cases here : other = place
    · rw [here, Function.update_self]
      exact shadows
    · rw [Function.update_of_ne here]
      exact alike.registries other
  sent := alike.sent

theorem Alike.update {shown whole : GSet} (alike : Alike horizon known replicas full)
    (shadows : Shadows horizon known shown whole) (place : ι) :
    Alike horizon known (replicas.update place shown) (full.update place whole) where
  registries other := by
    rw [Replicas.update, Replicas.update]
    dsimp only
    by_cases here : other = place
    · rw [here, Function.update_self, Function.update_self]
      exact shadows
    · rw [Function.update_of_ne here, Function.update_of_ne here]
      exact alike.registries other
  sent := alike.sent

omit [DecidableEq ι] in
theorem Alike.post {shown whole : Option GSet} (alike : Alike horizon known replicas full)
    (shadows : Option.Rel (Shadows horizon known) shown whole) (label : Nat) :
    Alike horizon known (replicas.post label shown) (full.post label whole) where
  registries := alike.registries
  sent other := by
    rw [Replicas.post, Replicas.post]
    dsimp only
    by_cases here : other = label
    · rw [here, Function.update_self, Function.update_self]
      exact shadows
    · rw [Function.update_of_ne here, Function.update_of_ne here]
      exact alike.sent other

/-- A step other than `compact`, when the entry that it brings about is known. -/
theorem Alike.step_known (alike : Alike horizon known replicas full)
    (held : ∀ name entry, replicas.Holds name entry → entry ∈ known name)
    (fresh : ∀ name entry, entry ∈ introduced event name → entry ∈ known name)
    (plain : event.isCompact = false) :
    Alike horizon known (replicas.step event) (full.step event) := by
  have here (place : ι) (name : String) (entry : FileEntry)
      (found : (replicas.registries place).getRaw name = some entry) : entry ∈ known name :=
    held name entry (.inl ⟨place, found⟩)
  cases event with
  | write place entry =>
      exact alike.update ((alike.registries place).insert (here place)
        (fresh entry.name entry ⟨rfl, rfl⟩)) place
  | send label place => exact alike.post (.some (alike.registries place)) label
  | sendDelta label place since walk =>
      exact alike.post (.some ((alike.registries place).delta since walk)) label
  | receive place label walk =>
      have sent := alike.sent label
      rw [step, step]
      cases found : replicas.sent label with
      | none =>
          rw [found] at sent
          cases standing : full.sent label with
          | none => exact alike
          | some whole =>
              rw [standing] at sent
              cases sent
      | some offered =>
          rw [found] at sent
          cases standing : full.sent label with
          | none =>
              rw [standing] at sent
              cases sent
          | some whole =>
              rw [standing] at sent
              cases sent with
              | some offers =>
                  refine alike.update ((alike.registries place).merge offers (here place) ?_ walk) place
                  exact fun name entry there => held name entry (.inr ⟨label, offered, found, there⟩)
  | discard label => exact alike.post .none label
  | compact place now maxAgeMs => cases plain

/-- A step that is in time keeps the devices alike, and `compact` does so on one side only. -/
theorem Alike.step (alike : Alike horizon replicas.about replicas full)
    (inTime : replicas.InTime horizon event) :
    Alike (max horizon event.horizon) (replicas.step event).about (replicas.step event)
      (if event.isCompact then full else full.step event) := by
  have brought (name : String) (entry : FileEntry) (member : entry ∈ (replicas.step event).about name) :
      entry ∈ replicas.about name ∪ introduced event name := held_step alike.keyed member
  have widened : Alike (max horizon event.horizon)
      (fun name => replicas.about name ∪ introduced event name) replicas full := by
    refine alike.mono (le_max_left _ _) fun name tomb before entry member _ => ?_
    refine member.imp_right fun new => ?_
    cases event with
    | write place written =>
        obtain ⟨rfl, -⟩ := new
        exact Prod.Lex.toLex_lt_toLex.mpr (.inl (lt_of_lt_of_le before inTime))
    | send label place => cases new
    | sendDelta label place since walk => cases new
    | receive place label walk => cases new
    | discard label => cases new
    | compact place now maxAgeMs => cases new
  refine Alike.mono ?_ le_rfl fun name _ _ entry member _ => .inl (brought name entry member)
  have held (name : String) (entry : FileEntry) (holds : replicas.Holds name entry) :
      entry ∈ replicas.about name ∪ introduced event name := .inl holds
  cases compacting : event.isCompact with
  | false => exact widened.step_known held (fun _ _ => .inr) compacting
  | true =>
      cases event with
      | compact place now maxAgeMs =>
          refine widened.update_left ((widened.registries place).compact now maxAgeMs ?_)
          intro name tomb found gone
          obtain ⟨dead, before⟩ := outdated_old gone
          refine ⟨by simp [Live, dead], lt_of_lt_of_le before (le_max_right _ _), ?_⟩
          intro entry member alive
          rcases member with holds | new
          · exact inTime name tomb found gone entry holds alive
          · cases new
      | write place entry => cases compacting
      | send label place => cases compacting
      | sendDelta label place since walk => cases compacting
      | receive place label walk => cases compacting
      | discard label => cases compacting

theorem Alike.run {events : List (ReplicaEvent ι)}
    (alike : Alike horizon replicas.about replicas full) (careful : replicas.Careful horizon events) :
    Alike (horizonAfter horizon events) (replicas.run events).about (replicas.run events)
      (full.run (uncompacted events)) := by
  induction events generalizing replicas full horizon with
  | nil => exact alike
  | cons event rest ih =>
      have stepped := alike.step careful.1
      have after := ih stepped careful.2
      cases compacting : event.isCompact with
      | false =>
          rw [compacting, if_neg Bool.false_ne_true] at after
          rw [uncompacted, List.filter_cons_of_pos (by rw [compacting]; rfl)]
          exact after
      | true =>
          rw [compacting, if_pos rfl] at after
          rw [uncompacted, List.filter_cons_of_neg (by rw [compacting]; decide)]
          exact after

theorem careful_append {earlier later : List (ReplicaEvent ι)} :
    replicas.Careful horizon (earlier ++ later) ↔ replicas.Careful horizon earlier ∧
      (replicas.run earlier).Careful (horizonAfter horizon earlier) later := by
  induction earlier generalizing replicas horizon with
  | nil => exact (and_iff_right trivial).symm
  | cons event rest ih =>
      change _ ∧ Careful _ _ (rest ++ later) ↔ (_ ∧ _) ∧ _
      rw [ih, and_assoc]
      rfl

omit [DecidableEq ι] in
theorem alike_start (keyed : replicas.Keyed) : Alike 0 replicas.about replicas replicas where
  registries place := ⟨keyed.registries place, keyed.registries place, fun _ => .same⟩
  sent label := by
    have sent := keyed.sent label
    generalize replicas.sent label = message at sent
    cases message with
    | none => exact .none
    | some registry => exact .some ⟨sent registry rfl, sent registry rfl, fun _ => .same⟩

/-- The entry comes back where the tombstone was dropped, and only there. -/
theorem resurrects {held whole offers : GSet} {tomb : FileEntry} (keyed : offered.Keyed)
    (offersKeyed : offers.Keyed) (walk : Walk) (gone : held.getRaw name = none)
    (sent : offered.getRaw name = some entry) (alive : entry.deleted = false)
    (kept : whole.getRaw name = some tomb) (dead : tomb.deleted = true)
    (older : entry.stamp ≤ tomb.stamp) (sentToo : offers.getRaw name = some entry) :
    (held.merge (walk.order offered)).get name = some entry ∧
      (whole.merge (walk.order offers)).get name = none := by
  have back : (held.merge (walk.order offered)).getRaw name = some entry := by
    rw [GSet.merge_getRaw_of_iterates keyed (walk.iterates _), gone, none_lww, sent]
  have still : (whole.merge (walk.order offers)).getRaw name = some tomb := by
    rw [GSet.merge_getRaw_of_iterates offersKeyed (walk.iterates _), kept, sentToo,
      lww_older _ older]
  constructor
  · exact Option.filter_eq_some_iff.mpr ⟨back, by rw [alive]; rfl⟩
  · refine Option.filter_eq_none_iff.mpr fun found same => ?_
    cases still.symm.trans same
    rw [dead]
    decide

theorem send_sent (label : Nat) (place : ι) :
    (replicas.step (.send label place)).sent label = some (replicas.registries place) := by
  rw [step, post]
  exact Function.update_self ..

theorem compact_elsewhere {other : ι} (away : other ≠ place) (now maxAgeMs : UInt64) :
    (replicas.step (.compact place now maxAgeMs)).registries other = replicas.registries other :=
  Function.update_of_ne away _ _

theorem receive_registries {label : Nat} {walk : Walk} (sent : replicas.sent label = some offered) :
    (replicas.step (.receive place label walk)).registries place =
      (replicas.registries place).merge (walk.order offered) := by
  rw [step, sent]
  exact Function.update_self ..

end Runs

/-- After a run in which every write and every `compact` was in time, another `compact` is in
time exactly if nobody who looks at live entries can ever tell it was made: whatever
happens in time afterwards, every device has the live entries it would have if none of the
`compact`s had been made. -/
theorem compaction_invisible_iff (start : Replicas ι) (keyed : start.Keyed)
    (earlier : List (ReplicaEvent ι)) (careful : start.Careful 0 earlier) (place : ι)
    (now maxAgeMs : UInt64) :
    let compacts := ReplicaEvent.compact place now maxAgeMs
    let horizon := horizonAfter 0 earlier
    (start.run earlier).InTime horizon compacts ↔
      ∀ later, ((start.run earlier).step compacts).Careful (max horizon compacts.horizon) later →
        ∀ reader name, ((start.run (earlier ++ compacts :: later)).registries reader).get name =
          ((start.run (uncompacted (earlier ++ later))).registries reader).get name := by
  intro compacts horizon
  constructor
  · intro inTime later careful' reader name
    have whole : start.Careful 0 (earlier ++ compacts :: later) :=
      careful_append.mpr ⟨careful, inTime, careful'⟩
    have skipped : uncompacted (earlier ++ compacts :: later) = uncompacted (earlier ++ later) := by
      simp [uncompacted, compacts, ReplicaEvent.isCompact]
    rw [← skipped]
    exact (((alike_start keyed).run whole).registries reader).get_eq name
  · intro invisible
    by_contra late
    have alike := (alike_start keyed).run careful
    set here := start.run earlier with hereRun
    set full := start.run (uncompacted earlier) with fullRun
    simp only [InTime, compacts, not_forall] at late
    obtain ⟨name, tomb, found, gone, entry, holds, alive, older⟩ := late
    have slot := (alike.registries place).slots name
    rw [found] at slot
    obtain ⟨kept, keptFound, keptDead, above⟩ :=
      slot.tombstone (by simp [Live, (outdated_old gone).1])
    have keptDeleted : kept.deleted = true := by simpa [Live] using keptDead
    have dropped : (GSet.compact now maxAgeMs (here.registries place)).1.getRaw name = none := by
      rw [GSet.compact_getRaw, found, Option.filter_some, if_neg (by rw [gone]; decide)]
    have compacted : (here.step compacts).registries place =
        (GSet.compact now maxAgeMs (here.registries place)).1 := Function.update_self ..
    -- Once the entry has been received, the two runs differ.
    have differ {offered offers : GSet} (shadows : Shadows horizon here.about offered offers)
        (sent : offered.getRaw name = some entry) :
        ((here.step compacts).registries place |>.merge (Walk.sorted.order offered)).get name ≠
          ((full.registries place).merge (Walk.sorted.order offers)).get name := by
      have sentToo := ((shadows.slots name).live_iff entry).mp ⟨sent, alive⟩
      obtain ⟨back, still⟩ := resurrects shadows.shownKeyed shadows.fullKeyed .sorted
        (compacted.symm ▸ dropped) sent alive keptFound keptDeleted ((not_lt.mp older).trans above)
        sentToo.1
      rw [back, still]
      simp
    rcases holds with ⟨peer, held⟩ | ⟨label, message, sent, held⟩
    · have away : peer ≠ place := by
        rintro rfl
        cases found.symm.trans held
        rw [(outdated_old gone).1] at alive
        cases alive
      have same := invisible [.send 0 peer, .receive place 0 .sorted] ⟨trivial, trivial, trivial⟩ place
        name
      have shownRun : start.run (earlier ++ compacts :: [.send 0 peer, .receive place 0 .sorted]) =
          ((here.step compacts).step (.send 0 peer)).step (.receive place 0 .sorted) := by
        rw [run, List.foldl_append]
        rfl
      have fullyRun : start.run (uncompacted (earlier ++ [.send 0 peer, .receive place 0 .sorted])) =
          (full.step (.send 0 peer)).step (.receive place 0 .sorted) := by
        rw [uncompacted, List.filter_append, run, List.foldl_append]
        rfl
      have message : ((here.step compacts).step (.send 0 peer)).sent 0 =
          some (here.registries peer) := by
        rw [send_sent, compact_elsewhere away]
      rw [shownRun, fullyRun, receive_registries message, receive_registries (send_sent 0 peer)] at same
      exact differ (alike.registries peer) held same
    · have standing := alike.sent label
      rw [sent] at standing
      obtain ⟨offers, fullSent, shadows⟩ : ∃ offers, full.sent label = some offers ∧
          Shadows horizon here.about message offers := by
        generalize full.sent label = offers at standing
        cases standing with
        | some shadows => exact ⟨_, rfl, shadows⟩
      have same := invisible [.receive place label .sorted] ⟨trivial, trivial⟩ place name
      have shownRun : start.run (earlier ++ compacts :: [.receive place label .sorted]) =
          (here.step compacts).step (.receive place label .sorted) := by
        rw [run, List.foldl_append]
        rfl
      have fullyRun : start.run (uncompacted (earlier ++ [.receive place label .sorted])) =
          full.step (.receive place label .sorted) := by
        rw [uncompacted, List.filter_append, run, List.foldl_append]
        rfl
      have still : (here.step compacts).sent label = some message := sent
      rw [shownRun, fullyRun, receive_registries still, receive_registries fullSent] at same
      exact differ shadows held same

section Example

/-- Two devices that know of a deletion at time 5. -/
def synced : Replicas Bool where
  registries _ := GSet.new.insert (GSet.dated "notes" 5 true)
  sent _ := none

theorem synced_holds {name : String} {entry : FileEntry} (holds : synced.Holds name entry) :
    entry.deleted = true := by
  rcases holds with ⟨place, held⟩ | ⟨label, registry, sent, -⟩
  · change (GSet.new.insert (GSet.dated "notes" 5 true)).getRaw name = some entry at held
    rw [GSet.insert_getRaw, GSet.new_getRaw, none_lww] at held
    split_ifs at held
    cases held
    rfl
  · cases sent

theorem compaction_invisible_iff_synced :
    let later : List (ReplicaEvent Bool) := [.send 0 true, .receive false 0 .sorted]
    ((synced.run (.compact false 100 20 :: later)).registries false).get "notes" =
      ((synced.run later).registries false).get "notes" := by
  intro later
  have keyed : synced.Keyed :=
    ⟨fun _ => GSet.lwwInsert_keyed GSet.new_keyed _, fun _ _ sent => by cases sent⟩
  have inTime : synced.InTime 0 (.compact false 100 20) := by
    intro name tomb found gone entry holds alive
    rw [synced_holds holds] at alive
    cases alive
  exact (compaction_invisible_iff synced keyed [] trivial false 100 20).mp inTime later
    ⟨trivial, trivial, trivial⟩ false "notes"

end Example

end Replicas

end Foculus.Sync

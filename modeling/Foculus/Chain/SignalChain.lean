import Foculus.Chain.Signal
import Foculus.Data.Action
import Foculus.Data.Saturating
import Std.Data.ExtTreeMap

namespace Foculus.Chain

open Data

/-! # Signal chains (`SignalChain` in `src/chain.rs`) -/

structure SignalChain where
  entries : Std.ExtTreeMap UInt64 Signal compare

inductive ChainError where
  | stepNotSequential
  | prevMismatch
  | equivocation
deriving DecidableEq, Repr

namespace SignalChain

def new : SignalChain := ⟨∅⟩

/-- The entry that the signal would equivocate with. -/
def checkEquivocation (chain : SignalChain) (sig : Signal) : Option Signal :=
  chain.entries[sig.step]?.filter fun existing =>
    existing.neuron = sig.neuron ∧ existing.prev = sig.prev

/-- What the next signal has to name as its predecessor. -/
def expectedPrev (hemera : Hemera) (chain : SignalChain) (expectedStep : UInt64) :
    Outcome ChainError Particle :=
  if expectedStep = 0 then .ok Particle.zero
  else
    match chain.entries[expectedStep - 1]? with
    | none => .err .prevMismatch
    | some last => .ok (last.hash hemera)

def append (hemera : Hemera) (sig : Signal) : Action SignalChain ChainError Unit := do
  let chain ← Action.get
  if (chain.checkEquivocation sig).isSome then Action.fail .equivocation
  else
    let expectedStep := lenU64 chain.entries.size
    if sig.step ≠ expectedStep then Action.fail .stepNotSequential
    else do
      let prev ← Action.lift (chain.expectedPrev hemera expectedStep)
      if sig.prev ≠ prev then Action.fail .prevMismatch
      else Action.modify fun chain => { entries := chain.entries.insert sig.step sig }

/-- The chain after appending the signals one by one, whatever each call returned. -/
def run (hemera : Hemera) (signals : List Signal) : SignalChain :=
  signals.foldl (fun chain sig => (append hemera sig chain).2) new

/-- What an append does: it is refused and changes nothing, or it adds the signal
at the next step, over the hash of the entry before. -/
theorem append_cases (hemera : Hemera) (sig : Signal) (chain : SignalChain) :
    (∃ error, append hemera sig chain = (.err error, chain)) ∨
      (sig.step = lenU64 chain.entries.size ∧
        chain.expectedPrev hemera sig.step = .ok sig.prev ∧
        append hemera sig chain = (.ok (), { entries := chain.entries.insert sig.step sig })) := by
  rw [append, Action.get_bind]
  split_ifs with equivocates
  · exact .inl ⟨_, rfl⟩
  · dsimp only
    split_ifs with misplaced
    · exact .inl ⟨_, rfl⟩
    · have placed := not_not.mp misplaced
      rw [← placed]
      cases expected : chain.expectedPrev hemera sig.step with
      | ok prev =>
          rw [Action.bind_ok (Action.lift_apply _ chain)]
          split_ifs with mismatched
          · exact .inl ⟨_, rfl⟩
          · rw [not_not.mp mismatched]
            exact .inr ⟨rfl, rfl, rfl⟩
      | err error => exact .inl ⟨error, rfl⟩
      | panic =>
          rw [expectedPrev] at expected
          split_ifs at expected
          split at expected
          · cases expected
          · cases expected

/-- The entries are numbered from 0 without a gap, and each names the hash of
the one before it. -/
structure Linked (hemera : Hemera) (chain : SignalChain) : Prop where
  keys : ∀ key, key ∈ chain.entries ↔ key.toNat < chain.entries.size
  steps : ∀ {key : UInt64} {sig : Signal}, chain.entries[key]? = some sig → sig.step = key
  first : ∀ {sig : Signal}, chain.entries[(0 : UInt64)]? = some sig → sig.prev = Particle.zero
  links : ∀ {key next : UInt64} {sig : Signal}, next.toNat = key.toNat + 1 →
    chain.entries[next]? = some sig → ∃ before, chain.entries[key]? = some before ∧ sig.prev = before.hash hemera

section Append

variable {hemera : Hemera} {chain : SignalChain}

theorem mem_of_found {key : UInt64} {sig : Signal} (found : chain.entries[key]? = some sig) :
    key ∈ chain.entries := by
  rw [Std.ExtTreeMap.mem_iff_isSome_getElem?, found]
  rfl

/-- The key of an entry is a position in the chain. -/
theorem Linked.key_lt (linked : chain.Linked hemera) {key : UInt64} {sig : Signal}
    (found : chain.entries[key]? = some sig) : key.toNat < chain.entries.size :=
  (linked.keys key).mp (mem_of_found found)

theorem new_linked (hemera : Hemera) : new.Linked hemera where
  keys key := by simp [new]
  steps found := by simp [new] at found
  first found := by simp [new] at found
  links _ found := by simp [new] at found

theorem getElem?_insert (chain : SignalChain) (sig : Signal) (key : UInt64) :
    (chain.entries.insert sig.step sig)[key]? =
      if key = sig.step then some sig else chain.entries[key]? := by
  rw [Std.ExtTreeMap.getElem?_insert]
  simp only [Std.compare_eq_iff_eq, eq_comm (a := key)]

/-- The step of the next signal is free as long as the count has not reached the
largest `u64`. -/
theorem Linked.step_spec (linked : chain.Linked hemera) {sig : Signal}
    (placed : sig.step = lenU64 chain.entries.size) {key : UInt64} (held : key ∈ chain.entries) :
    key.toNat ≠ sig.step.toNat + 1 := by
  have below := (linked.keys key).mp held
  have bound := key.toNat_lt
  rw [placed, lenU64_toNat]
  omega

theorem Linked.size_insert (linked : chain.Linked hemera) {sig : Signal}
    (placed : sig.step = lenU64 chain.entries.size) (key : UInt64) :
    key ∈ chain.entries.insert sig.step sig ↔
      key.toNat < (chain.entries.insert sig.step sig).size := by
  have bound := key.toNat_lt
  have position : sig.step.toNat = min chain.entries.size (2 ^ 64 - 1) := by
    rw [placed, lenU64_toNat]
  have known : chain.entries.contains sig.step = true ↔ sig.step.toNat < chain.entries.size :=
    linked.keys sig.step
  rw [Std.ExtTreeMap.mem_insert, Std.ExtTreeMap.size_insert, linked.keys, Std.compare_eq_iff_eq,
    ← UInt64.toNat_inj]
  simp only [known]
  split_ifs
  · omega
  · omega

/-- After the first step, what is expected is the hash of the entry one step back. -/
theorem expectedPrev_follows {step key : UInt64} {prev : Particle}
    (follows : step.toNat = key.toNat + 1) (expected : chain.expectedPrev hemera step = .ok prev) :
    ∃ last, chain.entries[key]? = some last ∧ prev = last.hash hemera := by
  have later : step ≠ 0 := by
    intro zero
    rw [zero] at follows
    cases follows
  have positive : (1 : UInt64) ≤ step := by
    rw [UInt64.le_iff_toNat_le, follows]
    exact Nat.le_add_left 1 _
  have before : step - 1 = key := by
    apply UInt64.toNat_inj.mp
    rw [UInt64.toNat_sub_of_le _ _ positive, follows]
    rfl
  rw [expectedPrev, if_neg later, before] at expected
  cases held : chain.entries[key]? with
  | none =>
      rw [held] at expected
      cases expected
  | some last =>
      rw [held] at expected
      exact ⟨last, rfl, (Outcome.ok.inj expected).symm⟩

theorem Linked.insert (linked : chain.Linked hemera) {sig : Signal}
    (placed : sig.step = lenU64 chain.entries.size)
    (expected : chain.expectedPrev hemera sig.step = .ok sig.prev) :
    (⟨chain.entries.insert sig.step sig⟩ : SignalChain).Linked hemera where
  keys := linked.size_insert placed
  steps {key other} found := by
    rw [getElem?_insert] at found
    split_ifs at found with here
    · cases found
      exact here.symm
    · exact linked.steps found
  first {other} found := by
    rw [getElem?_insert] at found
    split_ifs at found with here
    · cases found
      rw [expectedPrev, if_pos here.symm] at expected
      exact (Outcome.ok.inj expected).symm
    · exact linked.first found
  links {key next other} follows found := by
    simp only [getElem?_insert] at found ⊢
    split_ifs at found with here
    · cases found
      rw [here] at follows
      obtain ⟨last, held, prev⟩ := expectedPrev_follows follows expected
      have apart : key ≠ sig.step := by
        intro same
        subst same
        omega
      exact ⟨last, by rw [if_neg apart, held], prev⟩
    · have member : next ∈ chain.entries := mem_of_found found
      obtain ⟨before, held, prev⟩ := linked.links follows found
      have apart : key ≠ sig.step := by
        intro same
        subst same
        exact linked.step_spec placed member follows
      exact ⟨before, by rw [if_neg apart, held], prev⟩

theorem append_linked (hemera : Hemera) (sig : Signal) :
    (append hemera sig).Keeps (Linked hemera) := by
  intro chain linked
  rcases append_cases hemera sig chain with ⟨error, refused⟩ | ⟨placed, expected, added⟩
  · rw [refused]
    exact linked
  · rw [added]
    exact linked.insert placed expected

theorem run_linked (hemera : Hemera) (signals : List Signal) :
    (run hemera signals).Linked hemera := by
  rw [run]
  refine List.foldlRecOn signals _ (new_linked hemera) ?_
  exact fun chain linked sig _ => append_linked hemera sig chain linked

end Append

section TamperEvidence

/-- What the hash of a signal covers. -/
def position (sig : Signal) : ((Particle × UInt64) × Particle) × Particle :=
  (((sig.neuron, sig.step), sig.prev), sig.network)

def positionBytes (fields : ((Particle × UInt64) × Particle) × Particle) : List UInt8 :=
  fields.1.1.1.toList ++ u64Bytes fields.1.1.2 ++ fields.1.2.toList ++ fields.2.toList

theorem positionBytes_fixedWidth : FixedWidth positionBytes 104 :=
  ((Particle.toList_fixedWidth.append u64Bytes_fixedWidth).append
    Particle.toList_fixedWidth).append Particle.toList_fixedWidth

/-- The buffers that are hashed for the entries of a chain. -/
def hashed (chain : SignalChain) : Set (List UInt8) :=
  {bytes | ∃ (key : UInt64) (sig : Signal), chain.entries[key]? = some sig ∧
    bytes = positionBytes (position sig)}

variable {hemera : Hemera} {chain other : SignalChain}

theorem position_eq_of_hash (free : hemera.CollisionFree (chain.hashed ∪ other.hashed))
    {key key' : UInt64} {sig sig' : Signal} (found : chain.entries[key]? = some sig)
    (found' : other.entries[key']? = some sig') (same : sig.hash hemera = sig'.hash hemera) :
    position sig = position sig' :=
  positionBytes_fixedWidth.injective
    (free (.inl ⟨key, sig, found, rfl⟩) (.inr ⟨key', sig', found', rfl⟩) same)

/-- Two linked chains whose entries at some step have one hash agree at every
step up to it: each entry names the hash of the one before. -/
theorem positions_agree (linked : chain.Linked hemera) (linked' : other.Linked hemera)
    (free : hemera.CollisionFree (chain.hashed ∪ other.hashed)) {last : UInt64}
    {sig sig' : Signal} (found : chain.entries[last]? = some sig)
    (found' : other.entries[last]? = some sig') (same : sig.hash hemera = sig'.hash hemera)
    {key : UInt64} (upTo : key.toNat ≤ last.toNat) {entry entry' : Signal}
    (held : chain.entries[key]? = some entry) (held' : other.entries[key]? = some entry') :
    position entry = position entry' := by
  have positions := position_eq_of_hash free found found' same
  -- backwards from the last step: equal positions name one and the same predecessor
  obtain ⟨distance, between⟩ := Nat.exists_eq_add_of_le upTo
  induction distance generalizing last sig sig' with
  | zero =>
      cases UInt64.toNat_inj.mp between
      cases found.symm.trans held
      cases found'.symm.trans held'
      exact positions
  | succ distance ih =>
      have earlier : (last - 1).toNat + 1 = last.toNat := by
        have positive : (1 : UInt64) ≤ last := by
          rw [UInt64.le_iff_toNat_le, between]
          exact Nat.le_add_left 1 _
        rw [UInt64.toNat_sub_of_le _ _ positive, UInt64.toNat_one]
        omega
      obtain ⟨before, foundBefore, prev⟩ := linked.links earlier.symm found
      obtain ⟨before', foundBefore', prev'⟩ := linked'.links earlier.symm found'
      have prevs : sig.prev = sig'.prev := congrArg (·.1.2) positions
      rw [prev, prev'] at prevs
      exact ih foundBefore foundBefore' prevs (by omega)
        (position_eq_of_hash free foundBefore foundBefore' prevs) (by omega)

end TamperEvidence

/-- In every run of appends the entries are numbered from 0 and linked by their
hashes, and a refused signal changes nothing.  So the hash of the last signal
determines what the hashes cover of every entry. -/
theorem run_linked_and_bound (hemera : Hemera) (signals others : List Signal) :
    (run hemera signals).Linked hemera ∧
    (∀ sig, (append hemera sig (run hemera signals)).1 ≠ .ok () →
      (append hemera sig (run hemera signals)).2 = run hemera signals) ∧
    (hemera.CollisionFree ((run hemera signals).hashed ∪ (run hemera others).hashed) →
      ∀ (last : UInt64) (sig sig' : Signal),
        last.toNat + 1 = (run hemera signals).entries.size →
        last.toNat + 1 = (run hemera others).entries.size →
        (run hemera signals).entries[last]? = some sig →
        (run hemera others).entries[last]? = some sig' →
        sig.hash hemera = sig'.hash hemera →
        ∀ (key : UInt64) (entry entry' : Signal),
          (run hemera signals).entries[key]? = some entry →
          (run hemera others).entries[key]? = some entry' →
          entry.neuron = entry'.neuron ∧ entry.step = entry'.step ∧ entry.prev = entry'.prev ∧
            entry.network = entry'.network) := by
  have linked := run_linked hemera signals
  refine ⟨linked, ?_, ?_⟩
  · intro sig refused
    rcases append_cases hemera sig (run hemera signals) with ⟨error, failed⟩ | ⟨-, -, added⟩
    · rw [failed]
    · rw [added] at refused
      exact absurd rfl refused
  · intro free last sig sig' isLast _ found found' same key entry entry' held held'
    have below := linked.key_lt held
    have positions := positions_agree linked (run_linked hemera others) free found found' same
      (by omega) held held'
    exact ⟨congrArg (·.1.1.1) positions, congrArg (·.1.1.2) positions, congrArg (·.1.2) positions,
      congrArg (·.2) positions⟩

section Example

def firstSignal : Signal where
  neuron := Particle.zero
  network := Particle.padded [1]
  links := []
  deltaPi := []
  boxMoves := []
  prev := Particle.zero
  step := 0
  height := 0

def secondSignal : Signal :=
  { firstSignal with
    network := Particle.padded [2]
    prev := firstSignal.hash .truncating
    step := 1 }

/-- A chain of two signals, and one in which the first was sent twice. -/
theorem run_linked_and_bound_two_signals :
    let chain := run .truncating [firstSignal, secondSignal]
    let other := run .truncating [firstSignal, firstSignal, secondSignal]
    chain.entries.size = 2 ∧ other.entries.size = 2 ∧
      (append .truncating firstSignal chain).1 = .err .equivocation ∧
      (append .truncating firstSignal chain).2 = chain ∧
      ∀ (key : UInt64) (entry entry' : Signal), chain.entries[key]? = some entry →
        other.entries[key]? = some entry' → entry.prev = entry'.prev := by
  intro chain other
  have resent : other = chain := by
    have refused := (run_linked_and_bound .truncating [firstSignal] []).2.1 firstSignal
      (by decide +kernel)
    exact congrArg (fun between => (append .truncating secondSignal between).2) refused
  have entries : chain.entries.toList = [(0, firstSignal), (1, secondSignal)] := by decide +kernel
  have sizes : chain.entries.size = 2 := by decide +kernel
  have stored {key : UInt64} {sig : Signal} (held : chain.entries[key]? = some sig) :
      sig = firstSignal ∨ sig = secondSignal := by
    have member := Std.ExtTreeMap.mem_toList_iff_getElem?_eq_some.mpr held
    rw [entries] at member
    simp only [List.mem_cons, Prod.mk.injEq, List.not_mem_nil, or_false] at member
    exact member.imp And.right And.right
  have free : Hemera.truncating.CollisionFree (chain.hashed ∪ other.hashed) := by
    rw [resent, Set.union_self]
    have apart : Hemera.truncating.hash (positionBytes (position firstSignal)) ≠
        Hemera.truncating.hash (positionBytes (position secondSignal)) := by decide +kernel
    intro _ hashed _ other same
    obtain ⟨_, left, leftHeld, rfl⟩ := hashed
    obtain ⟨_, right, rightHeld, rfl⟩ := other
    rcases stored leftHeld with rfl | rfl <;> rcases stored rightHeld with rfl | rfl
    · rfl
    · exact absurd same apart
    · exact absurd same.symm apart
    · rfl
  have last : chain.entries[(1 : UInt64)]? = some secondSignal := by
    rw [← Std.ExtTreeMap.mem_toList_iff_getElem?_eq_some, entries]
    simp
  have otherSizes : other.entries.size = 2 := by rw [resent, sizes]
  have otherLast : other.entries[(1 : UInt64)]? = some secondSignal := by rw [resent, last]
  have bound := run_linked_and_bound .truncating [firstSignal, secondSignal]
    [firstSignal, firstSignal, secondSignal]
  refine ⟨sizes, otherSizes, by decide +kernel, bound.2.1 firstSignal (by decide +kernel), ?_⟩
  intro key entry entry' held held'
  exact (bound.2.2 free 1 secondSignal secondSignal sizes.symm otherSizes.symm last otherLast rfl
    key entry entry' held held').2.2.1

end Example

end SignalChain

end Foculus.Chain

import Foculus.Chain.SignalChain
import Foculus.Data.RunPrefixes

namespace Foculus.Chain.SignalChain

open Data

/-! Whose chain it is.

A chain stores no author.  `append` asks for the next step and for the hash of the
last entry, never for the neuron of the entries before, so what keeps a chain to
one neuron is that no other neuron sends a signal that fits.
-/

/-- The neuron of the entry at step 0. -/
def author (chain : SignalChain) : Option NeuronId :=
  chain.entries[(0 : UInt64)]?.map Signal.neuron

/-- The chain is the chain of one neuron. -/
def OneNeuron (chain : SignalChain) : Prop :=
  ∀ (key key' : UInt64) (sig sig' : Signal), chain.entries[key]? = some sig →
    chain.entries[key']? = some sig' → sig.neuron = sig'.neuron

/-- A signal for an occupied step with other content is an equivocation exactly if
it is the author's and over the same predecessor. -/
def ReportsForks (hemera : Hemera) (chain : SignalChain) : Prop :=
  ∀ sig existing : Signal, chain.entries[sig.step]? = some existing → ¬ existing.SameContent sig →
    ((append hemera sig chain).1 = .err .equivocation ↔
      chain.author = some sig.neuron ∧ sig.prev = existing.prev)

/-- Another neuron's signal that fits at the end of the chain. -/
def Foreign (hemera : Hemera) (chain : SignalChain) (sig : Signal) : Prop :=
  sig.step = lenU64 chain.entries.size ∧ chain.expectedPrev hemera sig.step = .ok sig.prev ∧
    ∃ neuron, chain.author = some neuron ∧ neuron ≠ sig.neuron

variable {hemera : Hemera} {chain : SignalChain} {sig : Signal}

theorem isSome_checkEquivocation_iff :
    (chain.checkEquivocation sig).isSome ↔
      ∃ existing, chain.entries[sig.step]? = some existing ∧
        existing.neuron = sig.neuron ∧ existing.prev = sig.prev := by
  rw [checkEquivocation, Option.isSome_filter, Option.any_eq_true]
  simp only [decide_eq_true_eq]

theorem expectedPrev_ne_equivocation (step : UInt64) :
    chain.expectedPrev hemera step ≠ .err .equivocation := by
  intro reported
  rw [expectedPrev] at reported
  split_ifs at reported
  split at reported
  · cases reported
  · cases reported

theorem append_equivocation_iff :
    (append hemera sig chain).1 = .err .equivocation ↔ (chain.checkEquivocation sig).isSome := by
  rw [append, Action.get_bind]
  split_ifs with equivocates
  · exact ⟨fun _ => equivocates, fun _ => rfl⟩
  · refine ⟨fun reported => ?_, fun found => absurd found equivocates⟩
    dsimp only at reported
    split_ifs at reported
    · cases reported
    · cases expected : chain.expectedPrev hemera (lenU64 chain.entries.size) with
      | ok prev =>
          rw [expected, Action.bind_ok (Action.lift_apply _ chain)] at reported
          split_ifs at reported
          · cases reported
          · cases reported
      | err error =>
          rw [expected, Action.bind_err (Action.lift_apply _ chain)] at reported
          cases reported
          exact absurd expected (expectedPrev_ne_equivocation _)
      | panic =>
          rw [expected, Action.bind_panic (Action.lift_apply _ chain)] at reported
          cases reported

/-- In a chain of one neuron, every entry has the author for its neuron. -/
theorem OneNeuron.author_eq (one : chain.OneNeuron) (linked : chain.Linked hemera) {key : UInt64}
    (held : chain.entries[key]? = some sig) : chain.author = some sig.neuron := by
  have below := linked.key_lt held
  have start : (0 : UInt64) ∈ chain.entries := (linked.keys 0).mpr (Nat.zero_lt_of_lt below)
  rw [Std.ExtTreeMap.mem_iff_isSome_getElem?, Option.isSome_iff_exists] at start
  obtain ⟨first, found⟩ := start
  rw [author, found, Option.map_some, one 0 key first sig found held]

theorem OneNeuron.reportsForks (one : chain.OneNeuron) (linked : chain.Linked hemera) :
    chain.ReportsForks hemera := by
  intro sig existing held _
  rw [append_equivocation_iff, isSome_checkEquivocation_iff, one.author_eq linked held, held]
  constructor
  · rintro ⟨_, ⟨⟩, neuron, prev⟩
    exact ⟨congrArg some neuron, prev.symm⟩
  · rintro ⟨neuron, prev⟩
    exact ⟨existing, rfl, Option.some.inj neuron, prev.symm⟩

theorem new_oneNeuron : new.OneNeuron := by
  intro key _ sig _ held
  simp [new] at held

/-- An append of a signal that is not foreign keeps the chain to its neuron. -/
theorem append_oneNeuron (one : chain.OneNeuron) (linked : chain.Linked hemera)
    (own : ¬ chain.Foreign hemera sig) : (append hemera sig chain).2.OneNeuron := by
  rcases append_cases hemera sig chain with ⟨error, refused⟩ | ⟨placed, expected, added⟩
  · rw [refused]
    exact one
  · rw [added]
    have authored {key : UInt64} {entry : Signal} (held : chain.entries[key]? = some entry) :
        entry.neuron = sig.neuron := by
      by_contra other
      exact own ⟨placed, expected, entry.neuron, one.author_eq linked held, other⟩
    intro key key' left right held held'
    simp only [getElem?_insert] at held held'
    split_ifs at held held'
    · cases held
      cases held'
      rfl
    · cases held
      exact (authored held').symm
    · cases held'
      exact authored held
    · exact one key key' left right held held'

theorem append_fitting (clear : ¬ (chain.checkEquivocation sig).isSome)
    (placed : sig.step = lenU64 chain.entries.size)
    (expected : chain.expectedPrev hemera sig.step = .ok sig.prev) :
    append hemera sig chain = (.ok (), { entries := chain.entries.insert sig.step sig }) := by
  rw [append, Action.get_bind, if_neg clear,
    if_neg (not_not.mpr placed), ← placed, expected,
    Action.bind_ok (Action.lift_apply _ chain), if_neg (not_not.mpr rfl)]
  rfl

/-- `append` takes the foreign signal, and the chain has entries of two neurons. -/
theorem Foreign.two_neurons (foreign : chain.Foreign hemera sig) (one : chain.OneNeuron)
    (linked : chain.Linked hemera) : ¬ (append hemera sig chain).2.OneNeuron := by
  obtain ⟨placed, expected, neuron, authored, other⟩ := foreign
  obtain ⟨first, found, rfl⟩ := Option.map_eq_some_iff.mp authored
  have clear : ¬ (chain.checkEquivocation sig).isSome := by
    rw [isSome_checkEquivocation_iff]
    rintro ⟨existing, held, same, -⟩
    exact other ((one 0 sig.step first existing found held).trans same)
  have later : (0 : UInt64) ≠ sig.step := by
    intro start
    have below := linked.key_lt found
    have position : sig.step.toNat = min chain.entries.size (2 ^ 64 - 1) := by
      rw [placed, lenU64_toNat]
    rw [← start, UInt64.toNat_zero] at position
    rw [UInt64.toNat_zero] at below
    omega
  rw [append_fitting clear placed expected]
  intro mixed
  refine other (mixed 0 sig.step first sig ?_ ?_)
  · rw [getElem?_insert, if_neg later, found]
  · rw [getElem?_insert, if_pos rfl]

/-- From a chain of one neuron, an append leads to another exactly if the signal is not
foreign. -/
theorem append_oneNeuron_iff (one : chain.OneNeuron) (linked : chain.Linked hemera) :
    (append hemera sig chain).2.OneNeuron ↔ ¬ chain.Foreign hemera sig :=
  ⟨fun kept foreign => foreign.two_neurons one linked kept, append_oneNeuron one linked⟩

/-- Through a run of appends the chain stays with one neuron, and reports the forks
of its author and no others, exactly if no signal that fits at its end when it comes
is another neuron's. -/
theorem oneNeuron_iff_no_foreign (hemera : Hemera) (signals : List Signal) :
    (∀ earlier, earlier <+: signals →
      (run hemera earlier).OneNeuron ∧ (run hemera earlier).ReportsForks hemera) ↔
    ∀ (earlier : List Signal) (sig : Signal), earlier ++ [sig] <+: signals →
      ¬ (run hemera earlier).Foreign hemera sig := by
  have throughout : (∀ earlier, earlier <+: signals → (run hemera earlier).OneNeuron) ↔
      ∀ (earlier : List Signal) (sig : Signal), earlier ++ [sig] <+: signals →
        ¬ (run hemera earlier).Foreign hemera sig :=
    throughout_iff OneNeuron (fun chain sig => ¬ chain.Foreign hemera sig) new_oneNeuron
      fun earlier _ _ one => append_oneNeuron_iff one (run_linked hemera earlier)
  rw [← throughout]
  constructor
  · exact fun kept earlier within => (kept earlier within).1
  · intro one earlier within
    have here := one earlier within
    exact ⟨here, here.reportsForks (run_linked hemera earlier)⟩

section Example

/-- A signal of another neuron, with the step and the predecessor that the chain of
the first one asks for. -/
def strangerSignal : Signal := { secondSignal with neuron := Particle.padded [7] }

/-- The stranger's signal is taken into the chain, and the author's own signal for
that step over the same predecessor is then no equivocation but out of sequence. -/
theorem stranger_takes_the_step :
    let chain := run .truncating [firstSignal, strangerSignal]
    (append .truncating strangerSignal (run .truncating [firstSignal])).1 = .ok () ∧
      chain.author = some secondSignal.neuron ∧ ¬ chain.OneNeuron ∧
      chain.entries[secondSignal.step]? = some strangerSignal ∧
      secondSignal.prev = strangerSignal.prev ∧ ¬ strangerSignal.SameContent secondSignal ∧
      (append .truncating secondSignal chain).1 = .err .stepNotSequential ∧
      ¬ chain.ReportsForks .truncating := by
  intro chain
  have entries : chain.entries.toList = [(0, firstSignal), (1, strangerSignal)] := by
    decide +kernel
  have first : chain.entries[(0 : UInt64)]? = some firstSignal := by
    rw [← Std.ExtTreeMap.mem_toList_iff_getElem?_eq_some, entries]
    simp
  have second : chain.entries[(1 : UInt64)]? = some strangerSignal := by
    rw [← Std.ExtTreeMap.mem_toList_iff_getElem?_eq_some, entries]
    simp
  have apart : firstSignal.neuron ≠ strangerSignal.neuron := by decide
  have authored : chain.author = some secondSignal.neuron := by
    rw [author, first]
    rfl
  have differs : ¬ strangerSignal.SameContent secondSignal := fun same => apart same.neuron.symm
  have refused : (append .truncating secondSignal chain).1 = .err .stepNotSequential := by
    decide +kernel
  refine ⟨by decide +kernel, authored, ?_, second, rfl, differs, refused, ?_⟩
  · intro one
    exact apart (one 0 1 firstSignal strangerSignal first second)
  · intro reports
    have reported := (reports secondSignal strangerSignal second differs).mpr ⟨authored, rfl⟩
    rw [refused] at reported
    cases reported

end Example

end Foculus.Chain.SignalChain

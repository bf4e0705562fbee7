import Foculus.Data.Outcome

namespace Foculus.Data

/-- A call on a mutable state: what it returns, and the state it leaves behind,
also when it returns an error or aborts. -/
def Action (σ ε α : Type) := σ → Outcome ε α × σ

namespace Action

variable {σ ε α β : Type}

protected def bind (action : Action σ ε α) (next : α → Action σ ε β) : Action σ ε β :=
  fun state =>
    match action state with
    | (.ok value, after) => next value after
    | (.err error, after) => (.err error, after)
    | (.panic, after) => (.panic, after)

instance : Monad (Action σ ε) where
  pure value := fun state => (.ok value, state)
  bind := Action.bind

def get : Action σ ε σ := fun state => (.ok state, state)

def modify (update : σ → σ) : Action σ ε Unit := fun state => (.ok (), update state)

def lift (outcome : Outcome ε α) : Action σ ε α := fun state => (outcome, state)

def fail (error : ε) : Action σ ε α := lift (.err error)

/-- The call with its error dropped; what it changed before it failed remains. -/
def attempt {δ : Type} (action : Action σ ε α) : Action σ δ (Option α) :=
  fun state =>
    match action state with
    | (.ok value, after) => (.ok (some value), after)
    | (.err _, after) => (.ok none, after)
    | (.panic, after) => (.panic, after)

/-- The call without its value. -/
def void (action : Action σ ε α) : Action σ ε Unit :=
  fun state => ((action state).1.void, (action state).2)

def when (condition : Prop) [Decidable condition] (action : Action σ ε Unit) : Action σ ε Unit :=
  if condition then action else pure ()

@[simp] theorem pure_apply (value : α) (state : σ) :
    (pure value : Action σ ε α) state = (.ok value, state) := rfl

@[simp] theorem get_bind (next : σ → Action σ ε β) (state : σ) :
    (get >>= next) state = next state state := rfl

@[simp] theorem modify_bind (update : σ → σ) (next : Unit → Action σ ε β) (state : σ) :
    (modify update >>= next) state = next () (update state) := rfl

@[simp] theorem lift_apply (outcome : Outcome ε α) (state : σ) :
    (lift outcome : Action σ ε α) state = (outcome, state) := rfl

theorem eq_of_fst_ok {action : Action σ ε α} {state : σ} {value : α}
    (returned : (action state).1 = .ok value) : action state = (.ok value, (action state).2) :=
  Prod.ext returned rfl

theorem bind_ok {action : Action σ ε α} {next : α → Action σ ε β} {state after : σ} {value : α}
    (returned : action state = (.ok value, after)) : (action >>= next) state = next value after := by
  change Action.bind action next state = _
  rw [Action.bind, returned]

theorem bind_err {action : Action σ ε α} {next : α → Action σ ε β} {state after : σ} {error : ε}
    (returned : action state = (.err error, after)) :
    (action >>= next) state = (.err error, after) := by
  change Action.bind action next state = _
  rw [Action.bind, returned]

theorem bind_panic {action : Action σ ε α} {next : α → Action σ ε β} {state after : σ}
    (aborted : action state = (.panic, after)) :
    (action >>= next) state = (.panic, after) := by
  change Action.bind action next state = _
  rw [Action.bind, aborted]

theorem lift_bind (outcome : Outcome ε α) (next : α → Action σ ε β) (state : σ) :
    (lift outcome >>= next) state = match outcome with
      | .ok value => next value state
      | .err error => (.err error, state)
      | .panic => (.panic, state) := by
  cases outcome <;> rfl

theorem expect_some_bind (value : α) (next : α → Action σ ε β) :
    (lift (Outcome.expect (some value)) >>= next) = next value := rfl

theorem expect_none_bind (next : α → Action σ ε β) (state : σ) :
    (lift (Outcome.expect none) >>= next) state = (.panic, state) := rfl

theorem bind_eq_ok_iff {action : Action σ ε α} {next : α → Action σ ε β} {state after : σ}
    {result : β} : (action >>= next) state = (.ok result, after) ↔
      ∃ value between, action state = (.ok value, between) ∧
        next value between = (.ok result, after) := by
  change Action.bind action next state = _ ↔ _
  rcases called : action state with ⟨outcome, between⟩
  cases outcome with
  | ok value => simp [Action.bind, called]
  | err error => simp [Action.bind, called]
  | panic => simp [Action.bind, called]

theorem bind_eq_err_iff {action : Action σ ε α} {next : α → Action σ ε β} {state after : σ}
    {error : ε} : (action >>= next) state = (.err error, after) ↔
      action state = (.err error, after) ∨ ∃ value between, action state = (.ok value, between) ∧
        next value between = (.err error, after) := by
  change Action.bind action next state = _ ↔ _
  rcases called : action state with ⟨outcome, between⟩
  cases outcome with
  | ok value => simp [Action.bind, called]
  | err error => simp [Action.bind, called]
  | panic => simp [Action.bind, called]

theorem bind_panic_iff {action : Action σ ε α} {next : α → Action σ ε β} {state : σ} :
    ((action >>= next) state).1 = .panic ↔ (action state).1 = .panic ∨
      ∃ value between, action state = (.ok value, between) ∧ (next value between).1 = .panic := by
  change (Action.bind action next state).1 = _ ↔ _
  rcases called : action state with ⟨outcome, between⟩
  cases outcome with
  | ok value => simp [Action.bind, called]
  | err error => simp [Action.bind, called]
  | panic => simp [Action.bind, called]

theorem lift_bind_eq_ok_iff {outcome : Outcome ε α} {next : α → Action σ ε β} {state after : σ}
    {result : β} : (lift outcome >>= next) state = (.ok result, after) ↔
      ∃ value, outcome = .ok value ∧ next value state = (.ok result, after) := by
  simp only [bind_eq_ok_iff, lift_apply, Prod.mk.injEq]
  constructor
  · rintro ⟨value, between, ⟨returned, rfl⟩, continued⟩
    exact ⟨value, returned, continued⟩
  · rintro ⟨value, returned, continued⟩
    exact ⟨value, state, ⟨returned, rfl⟩, continued⟩

section Void

variable {action : Action σ ε α}

theorem void_bind (next : α → Action σ ε β) :
    (action >>= next).void = action >>= fun value => (next value).void := by
  funext state
  rcases called : action state with ⟨outcome, between⟩
  cases outcome with
  | ok value => rw [bind_ok called, void, bind_ok called, void]
  | err error => rw [bind_err called, void, bind_err called, Outcome.void]
  | panic => rw [bind_panic called, void, bind_panic called, Outcome.void]

theorem void_map (result : α → β) : (action >>= fun value => pure (result value)).void = action.void := by
  funext state
  rcases called : action state with ⟨outcome, between⟩
  cases outcome with
  | ok value => rw [void, bind_ok called, void, called]; rfl
  | err error => rw [void, bind_err called, void, called]; rfl
  | panic => rw [void, bind_panic called, void, called]; rfl

theorem void_then (next : Action σ ε β) :
    (action.void >>= fun _ => next) = action >>= fun _ => next := by
  funext state
  rcases called : action state with ⟨outcome, between⟩
  have voided : action.void state = (outcome.void, between) := by rw [void, called]
  cases outcome with
  | ok value => rw [bind_ok voided, bind_ok called]
  | err error => rw [bind_err voided, bind_err called]
  | panic => rw [bind_panic voided, bind_panic called]

theorem void_eq_ok_iff {state after : σ} :
    action.void state = (.ok (), after) ↔ ∃ value, action state = (.ok value, after) := by
  rcases called : action state with ⟨outcome, between⟩
  cases outcome <;> simp [void, called, Outcome.void]

theorem void_eq_err_iff {state after : σ} {error : ε} :
    action.void state = (.err error, after) ↔ action state = (.err error, after) := by
  rcases called : action state with ⟨outcome, between⟩
  cases outcome <;> simp [void, called, Outcome.void]

theorem void_panic_iff {state : σ} : (action.void state).1 = .panic ↔ (action state).1 = .panic := by
  rcases called : action state with ⟨outcome, between⟩
  cases outcome <;> simp [void, called, Outcome.void]

end Void

section Each

/-- A loop over the items that leaves at the first call that does not return. -/
def each (body : α → Action σ ε Unit) : List α → Action σ ε Unit
  | [] => pure ()
  | item :: rest => do
      body item
      each body rest

variable {body : α → Action σ ε Unit}

/-- The loop aborts at the item whose call aborts in the state that the calls before
it have left. -/
theorem each_panic_iff {items : List α} {state : σ} :
    (each body items state).1 = .panic ↔ ∃ earlier item later between,
      items = earlier ++ item :: later ∧ each body earlier state = (.ok (), between) ∧
        (body item between).1 = .panic := by
  induction items generalizing state with
  | nil => simp [each]
  | cons first rest ih =>
      rw [each, bind_panic_iff]
      constructor
      · rintro (aborted | ⟨⟨⟩, next, called, aborted⟩)
        · exact ⟨[], first, rest, state, rfl, rfl, aborted⟩
        · obtain ⟨earlier, item, later, between, rfl, reached, aborted⟩ := ih.mp aborted
          refine ⟨first :: earlier, item, later, between, rfl, ?_, aborted⟩
          exact (bind_ok called).trans reached
      · rintro ⟨earlier, item, later, between, split, reached, aborted⟩
        cases earlier with
        | nil =>
            cases reached
            cases split
            exact .inl aborted
        | cons _ earlier =>
            cases split
            obtain ⟨⟨⟩, next, called, reached⟩ := bind_eq_ok_iff.mp reached
            exact .inr ⟨(), next, called, ih.mpr ⟨earlier, item, later, between, rfl, reached, aborted⟩⟩

/-- What every call that returns keeps is kept by a loop that returns. -/
theorem each_ok (invariant : σ → Prop) {items : List α} {state after : σ}
    (kept : ∀ item ∈ items, ∀ state after, invariant state → body item state = (.ok (), after) →
      invariant after)
    (holds : invariant state) (run : each body items state = (.ok (), after)) :
    invariant after := by
  induction items generalizing state with
  | nil =>
      cases run
      exact holds
  | cons first rest ih =>
      obtain ⟨⟨⟩, between, called, continued⟩ := bind_eq_ok_iff.mp run
      exact ih (fun item member => kept item (.tail _ member))
        (kept first (.head _) _ _ holds called) continued

end Each

section Keeps

/-- Whatever the call returns, it leaves a state with the invariant behind. -/
def Keeps (invariant : σ → Prop) (action : Action σ ε α) : Prop :=
  ∀ state, invariant state → invariant (action state).2

variable {invariant : σ → Prop}

theorem keeps_lift (outcome : Outcome ε α) : (lift outcome : Action σ ε α).Keeps invariant :=
  fun _ holds => holds

theorem keeps_pure (value : α) : (pure value : Action σ ε α).Keeps invariant :=
  fun _ holds => holds

theorem keeps_get : (get : Action σ ε σ).Keeps invariant := fun _ holds => holds

theorem keeps_bind {action : Action σ ε α} {next : α → Action σ ε β}
    (first : action.Keeps invariant) (second : ∀ value, (next value).Keeps invariant) :
    (action >>= next).Keeps invariant := by
  intro state holds
  have between := first state holds
  change invariant (Action.bind action next state).2
  rcases called : action state with ⟨outcome, after⟩
  rw [called] at between
  cases outcome with
  | ok value =>
      simp only [Action.bind, called]
      exact second value after between
  | err error => simpa only [Action.bind, called] using between
  | panic => simpa only [Action.bind, called] using between

theorem keeps_void {action : Action σ ε α} (kept : action.Keeps invariant) :
    action.void.Keeps invariant := kept

theorem keeps_attempt {δ : Type} {action : Action σ ε α} (kept : action.Keeps invariant) :
    (action.attempt : Action σ δ (Option α)).Keeps invariant := by
  intro state holds
  have after := kept state holds
  rcases called : action state with ⟨outcome, next⟩
  rw [called] at after
  cases outcome with
  | ok value => simpa only [attempt, called] using after
  | err error => simpa only [attempt, called] using after
  | panic => simpa only [attempt, called] using after

theorem keeps_ite {condition : Prop} [Decidable condition] {left right : Action σ ε α}
    (first : left.Keeps invariant) (second : right.Keeps invariant) :
    (if condition then left else right).Keeps invariant := by
  split_ifs
  · exact first
  · exact second

theorem keeps_when {condition : Prop} [Decidable condition] {action : Action σ ε Unit}
    (kept : action.Keeps invariant) : (when condition action).Keeps invariant :=
  keeps_ite kept (keeps_pure ())

theorem keeps_each {body : α → Action σ ε Unit} {items : List α}
    (kept : ∀ item ∈ items, (body item).Keeps invariant) : (each body items).Keeps invariant := by
  induction items with
  | nil => exact keeps_pure ()
  | cons item rest ih =>
      exact keeps_bind (kept item (.head _)) fun _ => ih fun other member => kept other (.tail _ member)

end Keeps

section Triple

/-- Run from a state with `before`, the call returns a value with `after`, or
fails with `failed`, or aborts with `aborted`. -/
def Triple (before : σ → Prop) (action : Action σ ε α) (after : α → σ → Prop)
    (failed aborted : σ → Prop) : Prop :=
  ∀ state, before state →
    match action state with
    | (.ok value, next) => after value next
    | (.err _, next) => failed next
    | (.panic, next) => aborted next

variable {before : σ → Prop} {after : α → σ → Prop} {failed aborted : σ → Prop}

theorem triple_pure {value : α} (returns : ∀ state, before state → after value state) :
    (pure value : Action σ ε α).Triple before after failed aborted :=
  fun state holds => returns state holds

theorem triple_get {next : σ → Action σ ε α}
    (continues : ∀ state, before state →
      (next state).Triple (· = state) after failed aborted) :
    (get >>= next).Triple before after failed aborted :=
  fun state holds => continues state holds state rfl

theorem triple_bind {action : Action σ ε α} {next : α → Action σ ε β} {between : α → σ → Prop}
    {last : β → σ → Prop} (first : action.Triple before between failed aborted)
    (second : ∀ value, (next value).Triple (between value) last failed aborted) :
    (action >>= next).Triple before last failed aborted := by
  intro state holds
  have reached := first state holds
  change match Action.bind action next state with
    | (.ok value, next) => last value next
    | (.err _, next) => failed next
    | (.panic, next) => aborted next
  rcases called : action state with ⟨outcome, middle⟩
  rw [called] at reached
  cases outcome with
  | ok value =>
      simp only [Action.bind, called]
      exact second value middle reached
  | err error => simpa only [Action.bind, called] using reached
  | panic => simpa only [Action.bind, called] using reached

theorem triple_lift_expect {found : Option α} {next : α → Action σ ε β} {last : β → σ → Prop}
    (absent : found = none → ∀ state, before state → aborted state)
    (present : ∀ value, found = some value → (next value).Triple before last failed aborted) :
    (lift (Outcome.expect found) >>= next).Triple before last failed aborted := by
  intro state holds
  cases found with
  | none => exact absent rfl state holds
  | some value => exact present value rfl state holds

theorem Triple.consequence {action : Action σ ε α} {stronger : σ → Prop} {weaker : α → σ → Prop}
    {fails aborts : σ → Prop} (triple : action.Triple before after failed aborted)
    (pre : ∀ state, stronger state → before state)
    (post : ∀ value state, after value state → weaker value state)
    (failing : ∀ state, failed state → fails state)
    (aborting : ∀ state, aborted state → aborts state) :
    action.Triple stronger weaker fails aborts := by
  intro state holds
  have reached := triple state (pre state holds)
  rcases called : action state with ⟨outcome, next⟩
  rw [called] at reached
  cases outcome with
  | ok value => exact post value next reached
  | err error => exact failing next reached
  | panic => exact aborting next reached

theorem keeps_iff_triple {invariant : σ → Prop} {action : Action σ ε α} :
    action.Keeps invariant ↔ action.Triple invariant (fun _ => invariant) invariant invariant := by
  refine forall_congr' fun state => forall_congr' fun _ => ?_
  rcases action state with ⟨outcome, next⟩
  cases outcome with
  | ok value => exact Iff.rfl
  | err error => exact Iff.rfl
  | panic => exact Iff.rfl

end Triple

section Atomic

/-- A call that changes the state only when it succeeds. -/
def atomic (value : σ → Outcome ε α) (step : σ → Except ε σ) : Action σ ε α :=
  fun state =>
    match step state with
    | .ok after => (value after, after)
    | .error error => (.err error, state)

variable {value : σ → Outcome ε α} {step : σ → Except ε σ} {state after : σ}

theorem atomic_ok (stepped : step state = .ok after) :
    atomic value step state = (value after, after) := by
  rw [atomic, stepped]

theorem atomic_error {error : ε} (failed : step state = .error error) :
    atomic value step state = (.err error, state) := by
  rw [atomic, failed]

theorem atomic_keeps {invariant : σ → Prop}
    (stepped : ∀ {state after}, step state = .ok after → invariant state → invariant after) :
    (atomic value step).Keeps invariant := by
  intro state holds
  cases called : step state with
  | ok after =>
      rw [atomic_ok called]
      exact stepped called holds
  | error error =>
      rw [atomic_error called]
      exact holds

theorem atomic_err {error : ε} (values : ∀ after, value after ≠ .err error)
    (failed : (atomic value step state).1 = .err error) : (atomic value step state).2 = state := by
  cases called : step state with
  | ok after =>
      rw [atomic_ok called] at failed
      exact absurd failed (values after)
  | error reason => rw [atomic_error called]

theorem void_err {action : Action σ ε α} {error : ε} (failed : (action.void state).1 = .err error) :
    (action state).1 = .err error := by
  change (action state).1.void = .err error at failed
  cases outcome : (action state).1 with
  | ok value => simp [outcome, Outcome.void] at failed
  | err reason => simpa [outcome, Outcome.void] using failed
  | panic => simp [outcome, Outcome.void] at failed

end Atomic

end Action

end Foculus.Data

import Mathlib.Data.List.Forall2

namespace Foculus.Data

/-- The result of a call that may return an error value or abort the process.
`panic` stands for a failed assertion, an index out of bounds or an arithmetic
overflow: the caller never sees a value. -/
inductive Outcome (ε α : Type) where
  | ok (value : α)
  | err (error : ε)
  | panic
deriving DecidableEq, Repr

namespace Outcome

variable {ε α β : Type}

protected def bind : Outcome ε α → (α → Outcome ε β) → Outcome ε β
  | .ok value, next => next value
  | .err error, _ => .err error
  | .panic, _ => .panic

instance : Monad (Outcome ε) where
  pure := .ok
  bind := Outcome.bind

instance : LawfulMonad (Outcome ε) :=
  LawfulMonad.mk' (Outcome ε) (fun outcome => by cases outcome <;> rfl) (fun _ _ => rfl)
    fun outcome _ _ => by cases outcome <;> rfl

/-- An array access or a checked operation: an absent value aborts. -/
def expect : Option α → Outcome ε α
  | some value => .ok value
  | none => .panic

def ofExcept : Except ε α → Outcome ε α
  | .ok value => .ok value
  | .error error => .err error

def void : Outcome ε α → Outcome ε Unit
  | .ok _ => .ok ()
  | .err error => .err error
  | .panic => .panic

@[simp] theorem pure_eq (value : α) : (pure value : Outcome ε α) = .ok value := rfl

@[simp] theorem ok_bind (value : α) (next : α → Outcome ε β) :
    (Outcome.ok value >>= next) = next value := rfl

@[simp] theorem err_bind (error : ε) (next : α → Outcome ε β) :
    (Outcome.err error >>= next) = .err error := rfl

@[simp] theorem panic_bind (next : α → Outcome ε β) :
    ((Outcome.panic : Outcome ε α) >>= next) = .panic := rfl

@[simp] theorem expect_some (value : α) : (expect (some value) : Outcome ε α) = .ok value := rfl

@[simp] theorem expect_none : (expect none : Outcome ε α) = .panic := rfl

theorem expect_eq_ok {found : Option α} {value : α} :
    (expect found : Outcome ε α) = .ok value ↔ found = some value := by
  cases found <;> simp

theorem ofExcept_eq_ok {result : Except ε α} {value : α} :
    ofExcept result = .ok value ↔ result = .ok value := by
  cases result <;> simp [ofExcept]

theorem expect_ne_err {found : Option α} {error : ε} : expect found ≠ .err error := by
  cases found <;> simp

theorem void_eq_ok {outcome : Outcome ε α} : outcome.void = .ok () ↔ ∃ value, outcome = .ok value := by
  cases outcome <;> simp [void]

theorem mapM_ok {call : α → Outcome ε β} {values : List α}
    (returns : ∀ value ∈ values, ∃ result, call value = .ok result) :
    ∃ results, values.mapM call = .ok results ∧
      List.Forall₂ (fun value result => call value = .ok result) values results := by
  induction values with
  | nil => exact ⟨[], by rw [List.mapM_nil]; rfl, .nil⟩
  | cons value rest ih =>
      obtain ⟨result, here⟩ := returns value (by simp)
      obtain ⟨results, later, related⟩ := ih fun other member => returns other (by simp [member])
      refine ⟨result :: results, ?_, .cons here related⟩
      rw [List.mapM_cons, here, ok_bind, later]
      rfl

end Outcome

/-- A sequence of fallible calls succeeds when each of them does. -/
theorem bind_eq_ok_iff {ε α β : Type} {call : Except ε α} {next : α → Except ε β} {result : β} :
    (call >>= next) = .ok result ↔ ∃ value, call = .ok value ∧ next value = .ok result := by
  cases call with
  | error reason => simp [bind, Except.bind]
  | ok value => simp [bind, Except.bind]

theorem mapError_eq_ok_iff {ε δ α : Type} {call : Except ε α} {rename : ε → δ} {value : α} :
    call.mapError rename = .ok value ↔ call = .ok value := by
  cases call with
  | error reason => simp [Except.mapError]
  | ok result => simp [Except.mapError]

theorem toOption_isSome_iff {ε α : Type} {call : Except ε α} :
    call.toOption.isSome = true ↔ ∃ value, call = .ok value := by
  cases call with
  | error reason => simp [Except.toOption]
  | ok result => simp [Except.toOption]

end Foculus.Data

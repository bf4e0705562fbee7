import Foculus.Data.Action

namespace Foculus.Data.Action

/-! # The states a loop comes to

A loop that leaves at the first call that does not return comes to an item only
when every call before it has returned. -/

variable {σ ε α : Type} {body : α → Action σ ε Unit} {items : List α} {item : α}
  {state between after : σ}

/-- The loop comes to the item in the state that the calls before it have left. -/
def Reaches (body : α → Action σ ε Unit) (items : List α) (state : σ) (item : α)
    (between : σ) : Prop :=
  ∃ earlier later, items = earlier ++ item :: later ∧ each body earlier state = (.ok (), between)

theorem reaches_head (first : α) (rest : List α) (state : σ) :
    Reaches body (first :: rest) state first state :=
  ⟨[], rest, rfl, rfl⟩

theorem Reaches.tail {first : α} {next : σ} (reached : Reaches body items next item between)
    (called : body first state = (.ok (), next)) :
    Reaches body (first :: items) state item between := by
  obtain ⟨earlier, later, rfl, run⟩ := reached
  exact ⟨first :: earlier, later, rfl, (bind_ok called).trans run⟩

theorem reaches_cons_iff {first : α} {rest : List α} :
    Reaches body (first :: rest) state item between ↔ item = first ∧ between = state ∨
      ∃ next, body first state = (.ok (), next) ∧ Reaches body rest next item between := by
  constructor
  · rintro ⟨earlier, later, split, run⟩
    cases earlier with
    | nil =>
        cases run
        cases split
        exact .inl ⟨rfl, rfl⟩
    | cons head earlier =>
        obtain ⟨rfl, rfl⟩ := List.cons.inj split
        obtain ⟨⟨⟩, next, called, run⟩ := bind_eq_ok_iff.mp run
        exact .inr ⟨next, called, earlier, later, rfl, run⟩
  · rintro (⟨rfl, rfl⟩ | ⟨next, called, reached⟩)
    · exact reaches_head item rest between
    · exact reached.tail called

theorem reaches_nil : ¬ Reaches body [] state item between := by
  rintro ⟨earlier, later, split, -⟩
  simp at split

theorem reaches_singleton_iff {first : α} :
    Reaches body [first] state item between ↔ item = first ∧ between = state := by
  rw [reaches_cons_iff, or_iff_left]
  rintro ⟨next, -, reached⟩
  exact reaches_nil reached

theorem Reaches.mem (reached : Reaches body items state item between) : item ∈ items := by
  obtain ⟨earlier, later, rfl, -⟩ := reached
  simp

/-- The loop returns when every call it comes to does. -/
theorem each_ok_iff : (each body items state).1 = .ok () ↔
    ∀ item between, Reaches body items state item between → (body item between).1 = .ok () := by
  induction items generalizing state with
  | nil =>
      refine iff_of_true rfl fun item between reached => ?_
      exact (reaches_nil reached).elim
  | cons first rest ih =>
      rw [each]
      rcases called : body first state with ⟨outcome, next⟩
      cases outcome with
      | ok value =>
          rw [bind_ok called, ih]
          constructor
          · intro returned item between reached
            rcases reaches_cons_iff.mp reached with ⟨rfl, rfl⟩ | ⟨_, here, reached⟩
            · rw [called]
            · cases called.symm.trans here
              exact returned item between reached
          · exact fun returned item between reached => returned item between (reached.tail called)
      | err error =>
          rw [bind_err called]
          refine iff_of_false (by simp) fun returned => ?_
          cases (congrArg Prod.fst called).symm.trans (returned first state (reaches_head ..))
      | panic =>
          rw [bind_panic called]
          refine iff_of_false (by simp) fun returned => ?_
          cases (congrArg Prod.fst called).symm.trans (returned first state (reaches_head ..))

/-- What every call that returns keeps holds of each state that the loop comes to. -/
theorem Reaches.keeps {invariant : σ → Prop} (reached : Reaches body items state item between)
    (kept : ∀ {item between after}, Reaches body items state item between → invariant between →
      body item between = (.ok (), after) → invariant after)
    (holds : invariant state) : invariant between := by
  induction items generalizing state with
  | nil => exact (reaches_nil reached).elim
  | cons first rest ih =>
      rcases reaches_cons_iff.mp reached with ⟨rfl, rfl⟩ | ⟨next, called, reached⟩
      · exact holds
      · refine ih reached (fun later => kept (later.tail called)) ?_
        exact kept (reaches_head first rest state) holds called

/-- A loop leaves the state it starts in, or what its last call leaves. -/
theorem each_last {final : σ → Prop} (start : final state)
    (last : ∀ item between, Reaches body items state item between → final (body item between).2) :
    final (each body items state).2 := by
  induction items generalizing state with
  | nil => exact start
  | cons first rest ih =>
      have here := last first state (reaches_head first rest state)
      rw [each]
      rcases called : body first state with ⟨outcome, next⟩
      rw [called] at here
      cases outcome with
      | ok value =>
          rw [bind_ok called]
          exact ih here fun item between reached => last item between (reached.tail called)
      | err error => rwa [bind_err called]
      | panic => rwa [bind_panic called]

/-- Once the loop comes to an item, it goes on as from there. -/
theorem Reaches.run (reached : Reaches body items state item between) :
    ∃ later, each body items state = each body (item :: later) between := by
  induction items generalizing state with
  | nil => exact (reaches_nil reached).elim
  | cons first rest ih =>
      rcases reaches_cons_iff.mp reached with ⟨rfl, rfl⟩ | ⟨next, called, reached⟩
      · exact ⟨rest, rfl⟩
      · obtain ⟨later, run⟩ := ih reached
        exact ⟨later, (bind_ok called).trans run⟩

/-- The first call that fails ends the loop. -/
theorem Reaches.fails {error : ε} (reached : Reaches body items state item between)
    (failed : body item between = (.err error, after)) :
    each body items state = (.err error, after) := by
  obtain ⟨later, run⟩ := reached.run
  exact run.trans (bind_err failed)

/-- What a call has left and all the others keep is there in the end. -/
theorem Reaches.keeps_to_end {invariant : σ → Prop}
    (reached : Reaches body items state item between)
    (kept : ∀ item, (body item).Keeps invariant) (left : invariant (body item between).2) :
    invariant (each body items state).2 := by
  obtain ⟨later, run⟩ := reached.run
  rw [run, each]
  rcases called : body item between with ⟨outcome, next⟩
  rw [called] at left
  cases outcome with
  | ok value =>
      rw [bind_ok called]
      exact keeps_each (fun other _ => kept other) next left
  | err error => rwa [bind_err called]
  | panic => rwa [bind_panic called]

end Foculus.Data.Action

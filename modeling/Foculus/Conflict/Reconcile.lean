import Foculus.Conflict.Fork
import Foculus.Conflict.Index
import Foculus.Data.Outcome

namespace Foculus.Conflict

open Chain Data

/-! # The reconciliation engine (`src/reconcile.rs`) -/

structure Resolved where
  key : ConflictKey
  winner : Particle
deriving DecidableEq

structure Reconciler where
  index : ConflictIndex
  fork : ForkChoice

namespace Reconciler

def new (fork : ForkChoice) : Reconciler := { index := .new, fork }

def resolveKey (hemera : Hemera) (engine : Reconciler) (key : ConflictKey) :
    Outcome ForkError Resolved :=
  match engine.index.group key with
  | none => .err .empty
  | some group =>
      match engine.fork group.members engine.index.allLinks with
      | .error error => .err error
      | .ok idx => do
          let member ← Outcome.expect group.members[idx]?
          return { key, winner := member.contentId hemera }

def observe (hemera : Hemera) (engine : Reconciler) (sig : Signal) :
    Reconciler × Outcome ForkError (List Resolved) :=
  let (index, keys) := engine.index.observe hemera sig
  let engine := { engine with index }
  (engine, keys.mapM (engine.resolveKey hemera))

def resolveAll (hemera : Hemera) (engine : Reconciler) : Outcome ForkError (List Resolved) :=
  engine.index.conflicts.mapM (engine.resolveKey hemera)

def run (hemera : Hemera) (fork : ForkChoice) (signals : List Signal) :
    Reconciler × List Resolved :=
  signals.foldl
    (fun (engine, reported) sig =>
      match engine.observe hemera sig with
      | (engine, .ok resolved) => (engine, reported ++ resolved)
      | (engine, _) => (engine, reported))
    (new fork, [])

def lastReport (reported : List Resolved) (key : ConflictKey) : Option Resolved :=
  reported.reverse.find? fun resolved => resolved.key = key

theorem run_append (hemera : Hemera) (fork : ForkChoice) (signals : List Signal) (sig : Signal) :
    run hemera fork (signals ++ [sig]) =
      match (run hemera fork signals).1.observe hemera sig with
      | (engine, .ok resolved) => (engine, (run hemera fork signals).2 ++ resolved)
      | (engine, _) => (engine, (run hemera fork signals).2) := by
  rw [run, List.foldl_append]
  rfl

theorem run_engine (hemera : Hemera) (fork : ForkChoice) (signals : List Signal) :
    (run hemera fork signals).1 = { index := .observeAll hemera signals, fork } := by
  induction signals using List.reverseRecOn with
  | nil => rfl
  | append_singleton signals sig ih =>
      rw [run_append, ConflictIndex.observeAll_append, ih]
      split <;> rename_i observed <;> exact (congrArg Prod.fst observed).symm

/-- What a step reports: the resolution of the signal's own key, when the signal
has company there. -/
theorem run_reported (hemera : Hemera) (fork : ForkChoice) (signals : List Signal) (sig : Signal) :
    (run hemera fork (signals ++ [sig])).2 = (run hemera fork signals).2 ++
      if ((ConflictIndex.observeAll hemera signals).joined hemera sig).size > 1 then
        match resolveKey hemera { index := .observeAll hemera (signals ++ [sig]), fork }
            (equivocationKey hemera sig) with
        | .ok resolved => [resolved]
        | _ => []
      else [] := by
  rw [run_append, run_engine, observe]
  dsimp only
  rw [ConflictIndex.observe_keys, ← ConflictIndex.observeAll_append]
  split_ifs with company
  · rw [List.mapM_cons, List.mapM_nil]
    cases resolveKey hemera { index := .observeAll hemera (signals ++ [sig]), fork }
      (equivocationKey hemera sig) <;> simp
  · rw [List.mapM_nil]
    rfl

end Reconciler

end Foculus.Conflict

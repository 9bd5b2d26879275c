import LeoFront.Proofs.Resolution.Effect

namespace LeoFront

def Session.writes (session : Session) : List (String × Definition) :=
  session.journal.reverse.filterMap Event.write?

namespace Resolution
variable {α : Type}

def ending : EStateM.Result Failure Session α → Except Failure α
  | .ok value _ => .ok value
  | .error failure _ => .error failure

theorem ending_run (step : Resolution α) [Oblivious step] (session : Session) :
    ending (step session) = step.outcome session.active := by
  rw [run_eq step, Account.resume, outcome]
  cases (step.account session.active).outcome <;> rfl

theorem active_run (step : Resolution α) [Oblivious step] (session : Session) :
    (sessionAfter (step session)).active = session.active := by
  rw [sessionAfter_run, Session.replay_active]

theorem store_run (step : Resolution α) [Oblivious step] (session : Session) :
    (sessionAfter (step session)).store =
      session.store.write ((step.account session.active).events.filterMap Event.write?) := by
  rw [sessionAfter_run, ← DefinitionStore.apply_eq_write]
  rfl

theorem writes_run (step : Resolution α) [Oblivious step] (session : Session) :
    (sessionAfter (step session)).writes =
      session.writes ++ (step.account session.active).events.filterMap Event.write? := by
  rw [sessionAfter_run]
  simp [Session.writes, Session.replay]

end Resolution

namespace Resolver
open Resolution

/-- The resolution of a program ends alike whatever the store holds, and it makes the same writes. So
no key is lost or moved, whether it succeeds or fails, and the same resolution once more leaves the
store as it is. -/
theorem resolveProgram_writes (resolver : Resolver) (program : Program) (path : Option String)
    (active : List String) :
    ∃ (outcome : Except Failure Unit) (writes : List (String × Definition)), ∀ store journal,
      let run := resolver.resolveProgram program path
      let before : Session := ⟨store, active, journal⟩
      let after := sessionAfter (run before)
      ending (run before) = outcome ∧ after.writes = before.writes ++ writes ∧
      after.store = store.write writes ∧ store.keys <+: after.store.keys ∧
      ending (run after) = outcome ∧ (sessionAfter (run after)).store = after.store := by
  let run := resolver.resolveProgram program path
  refine ⟨run.outcome active, (run.account active).events.filterMap Event.write?, ?_⟩
  intro store journal run before after
  have written : after.store = store.write _ := store_run run before
  have still : after.active = active := active_run run before
  refine ⟨ending_run run before, writes_run run before, written, ?_, ?_, ?_⟩
  · rw [written]
    exact store.keys_prefix_write _
  · rw [ending_run, still]
  · rw [store_run, still, written, Table.write_write]

end Resolver

end LeoFront

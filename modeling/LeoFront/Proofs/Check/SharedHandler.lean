import LeoFront.Proofs.Check.Program

namespace LeoFront
variable {σ τ : Type}

theorem Handler.hadErrors_iff (handler : Handler σ) :
    handler.hadErrors = true ↔ handler.errors ≠ [] := by
  simp [hadErrors]

structure Check where
  program : Program
  known : List String
  filePath : Option String

namespace Check

def run (check : Check) (handler : Handler σ) : List Diagnostic × Handler σ :=
  check.program.typecheckWith check.known check.filePath handler

def through (handler : Handler σ) (checks : List Check) : Handler σ :=
  checks.foldl (fun handler check => (check.run handler).2) handler

theorem run_eq (check : Check) (handler : Handler σ) (own : Handler τ) :
    check.run handler = ((check.run own).1, (check.run own).1.foldl Handler.emit handler) := by
  have given : (check.run handler).1 = (check.run own).1 :=
    (Program.typecheckWith_eq ..).trans (Program.typecheckWith_eq ..).symm
  refine Prod.ext given ?_
  rw [← given]
  exact Program.typecheckWith_handler ..

theorem through_eq (checks : List Check) (handler : Handler σ) (own : Handler τ) :
    through handler checks =
      (checks.flatMap fun check => (check.run own).1).foldl Handler.emit handler := by
  induction checks generalizing handler with
  | nil => rfl
  | cons check rest ih =>
    rw [List.flatMap_cons, List.foldl_append, ← ih, through, List.foldl_cons, run_eq check handler own]
    rfl

/-- Whatever a handler holds, and whatever was checked with it before, a check gives what it gives with
any new handler. It adds that to the diagnostics of the handler, which are those of the checks before
it behind the ones it began with; its observer sees each of them once, in order; and they are counted. -/
theorem run_apart (handler : Handler σ) (earlier : List Check) (check : Check)
    (observe : τ → Diagnostic → τ) (observed : τ) :
    let alone (check : Check) := (check.run (.new observe observed)).1
    let before := through handler earlier
    let after := (check.run before).2
    (check.run before).1 = alone check ∧
    before.errors = handler.errors ++ earlier.flatMap alone ∧
    after.errors = before.errors ++ alone check ∧
    (after.observe = handler.observe ∧
      after.observed = (alone check).foldl handler.observe before.observed) ∧
    after.errorCount = after.errors.length ∧
    (after.hadErrors = true ↔ after.errors ≠ []) := by
  intro alone before after
  have earlierEmitted : before = (earlier.flatMap alone).foldl Handler.emit handler :=
    through_eq earlier handler _
  have emitted : check.run before = (alone check, (alone check).foldl Handler.emit before) :=
    run_eq check before _
  have kept : before.observe = handler.observe := by rw [earlierEmitted, Handler.foldl_emit]
  have afterEmitted : after = (alone check).foldl Handler.emit before := congrArg Prod.snd emitted
  rw [Handler.foldl_emit] at earlierEmitted afterEmitted
  refine ⟨congrArg Prod.fst emitted, by rw [earlierEmitted], by rw [afterEmitted], ⟨?_, ?_⟩, rfl,
    after.hadErrors_iff⟩
  · rw [afterEmitted, kept]
  · rw [afterEmitted, kept]

end Check

end LeoFront

import LeoFront.Proofs.Resolution.Writes

namespace LeoFront

open Resolution

inductive Request where
  | program (program : Program) (path : Option String)
  | definitions (program : Program)
  | statement (scope : String) (statement : Import)
  | package (scope directory : String) (package : Package)
  | access (scope : String) (entry : Entry) (access : Access)
  | everything (scope : String) (entry : Entry) (span : Span)
  | symbol (scope : String) (entry : Entry) (symbol : ImportSymbol)

def Resolver.serve (resolver : Resolver) : Request → Resolution Unit
  | .program program path => resolver.resolveProgram program path
  | .definitions program => resolver.resolveDefinitions program
  | .statement scope statement => resolver.resolveImport scope statement
  | .package scope directory package => resolver.resolvePackage scope directory package
  | .access scope entry access => resolver.resolveAccess scope entry access
  | .everything scope entry span => resolver.takeAll resolver.imports scope entry span
  | .symbol scope entry symbol => resolver.takeSymbol resolver.imports scope entry symbol

instance Resolver.oblivious_serve (resolver : Resolver) (request : Request) :
    Oblivious (resolver.serve request) := by
  cases request with
  | program program path => exact oblivious_resolveProgram resolver program path
  | definitions program => exact oblivious_resolveDefinitions resolver program
  | statement scope statement => exact oblivious_imports resolver scope [statement]
  | package scope directory package => exact oblivious_takePackage resolver _ scope directory _ _
  | access scope entry access => exact oblivious_takeEntry resolver _ scope entry access
  | everything scope entry span => exact oblivious_takeAll resolver _ scope entry span
  | symbol scope entry symbol => exact oblivious_takeSymbol resolver _ scope entry symbol

structure Call where
  workspace : Workspace
  request : Request

/-- Does what is asked for in a package root that stays the same from call to call. -/
def Call.run (root : Option String) (call : Call) : Resolution Unit :=
  Resolver.serve ⟨call.workspace, root⟩ call.request

instance Call.oblivious_run (root : Option String) (call : Call) : Oblivious (call.run root) :=
  Resolver.oblivious_serve _ call.request

namespace Session
variable {root : Option String}

def through (root : Option String) (session : Session) (calls : List Call) : Session :=
  calls.foldl (fun session call => sessionAfter (call.run root session)) session

theorem active_through (session : Session) (calls : List Call) :
    (session.through root calls).active = session.active := by
  induction calls generalizing session with
  | nil => rfl
  | cons call rest ih =>
    show (through root (sessionAfter (call.run root session)) rest).active = session.active
    rw [ih, active_run]

theorem run_of_idle (step : Resolution Unit) [Oblivious step] {session : Session}
    (idle : session.active = []) :
    ending (step session) = ending (step (.start session.store)) ∧
      (sessionAfter (step session)).store = (sessionAfter (step (.start session.store))).store ∧
      (sessionAfter (step session)).journal =
        (sessionAfter (step (.start session.store))).journal ++ session.journal := by
  refine ⟨?_, ?_, ?_⟩
  · rw [ending_run, ending_run, idle]
    rfl
  · rw [store_run, store_run, idle]
    rfl
  · rw [sessionAfter_run, sessionAfter_run, idle]
    simp [replay, start]

/-- However the calls before it ended, a call finds the files active that were before them, none, and
leaves them so. It ends as in a new session with the same store, and adds the same to the store and to
the journal. -/
theorem call_afresh (root : Option String) (store : DefinitionStore) (calls : List Call)
    (call : Call) :
    let before := (start store).through root calls
    let after := sessionAfter (call.run root before)
    let afresh := call.run root (start before.store)
    after.active = before.active ∧ before.active = [] ∧
    ending (call.run root before) = ending afresh ∧ after.store = (sessionAfter afresh).store ∧
    after.journal = (sessionAfter afresh).journal ++ before.journal := by
  intro before after afresh
  have idle : before.active = [] := active_through (start store) calls
  exact ⟨active_run (call.run root) before, idle, run_of_idle (call.run root) idle⟩

end Session

end LeoFront

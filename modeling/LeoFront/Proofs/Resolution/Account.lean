import LeoFront.Proofs.Resolution.Selection

/-!
# Resolution without its state

No step of a resolution looks at the store or at the journal, and every step leaves the active files
as it found them. So what a step ends with and what it does depend on the active files alone:
`Resolution.account` says both, and `Oblivious` says that the account tells the whole run.

* `account_bind`, `account_inside` and their like compute the account of a compound step.
* `Resolver.oblivious_imports`: the whole resolver is oblivious.
* `DefinitionStore.apply_eq_write`: what is done changes the store by a sequence of writes.
-/

namespace LeoFront

structure Account (α : Type) where
  outcome : Except Failure α
  events : List Event

namespace Account

def pure {α : Type} (value : α) : Account α := ⟨.ok value, []⟩

def bind {α β : Type} (first : Account α) (next : α → Account β) : Account β :=
  match first.outcome with
  | .ok value => ⟨(next value).outcome, first.events ++ (next value).events⟩
  | .error failure => ⟨.error failure, first.events⟩

end Account

def DefinitionStore.apply (store : DefinitionStore) : Event → DefinitionStore
  | .stored name definition => store.insert name definition
  | _ => store

def Event.write? : Event → Option (String × Definition)
  | .stored name definition => some (name, definition)
  | .listed _ | .inspected _ | .opened _ | .logged _ | .entered _ | .left _ => none

theorem DefinitionStore.apply_eq_write (events : List Event) (store : DefinitionStore) :
    events.foldl apply store = store.write (events.filterMap Event.write?) := by
  induction events generalizing store with
  | nil => rfl
  | cons event rest ih => cases event <;> exact ih _

def Session.replay (session : Session) (events : List Event) : Session :=
  { session with
    store := events.foldl DefinitionStore.apply session.store
    journal := events.reverse ++ session.journal }

@[simp] theorem Session.replay_active (session : Session) (events : List Event) :
    (session.replay events).active = session.active := rfl

theorem Session.replay_append (session : Session) (first second : List Event) :
    session.replay (first ++ second) = (session.replay first).replay second := by
  simp [Session.replay]

def Account.resume {α : Type} (account : Account α) (session : Session) :
    EStateM.Result Failure Session α :=
  match account.outcome with
  | .ok value => .ok value (session.replay account.events)
  | .error failure => .error failure (session.replay account.events)

namespace Resolution
variable {α β : Type}

/-- What a step does with an empty store while some files are active. -/
def account (step : Resolution α) (active : List String) : Account α :=
  match step ⟨.empty, active, []⟩ with
  | .ok value session => ⟨.ok value, session.journal.reverse⟩
  | .error failure session => ⟨.error failure, session.journal.reverse⟩

def outcome (step : Resolution α) (active : List String) : Except Failure α :=
  (step.account active).outcome

end Resolution

/-- A step that depends on the active files only, and leaves them as they are. -/
class Oblivious {α : Type} (step : Resolution α) : Prop where
  run : ∀ session, step session = (step.account session.active).resume session

namespace Resolution
variable {α β : Type}

theorem account_eq {step : Resolution α} {active : List String} {expected : Account α}
    (run : ∀ store journal, step ⟨store, active, journal⟩ = expected.resume ⟨store, active, journal⟩) :
    step.account active = expected := by
  obtain ⟨outcome, events⟩ := expected
  cases outcome <;> simp [account, run, Account.resume, Session.replay]

theorem oblivious_of_accounts {step : Resolution α} (accounts : List String → Account α)
    (run : ∀ session, step session = (accounts session.active).resume session) :
    Oblivious step := by
  refine ⟨fun session => ?_⟩
  have same : step.account session.active = accounts session.active :=
    account_eq fun store journal => run _
  rw [same]
  exact run session

theorem run_eq (step : Resolution α) [Oblivious step] (session : Session) :
    step session = (step.account session.active).resume session :=
  Oblivious.run session

theorem outcome_of_ok {step : Resolution α} [Oblivious step] {session after : Session} {value : α}
    (run : step session = .ok value after) : step.outcome session.active = .ok value := by
  rw [run_eq step, Account.resume] at run
  unfold outcome
  cases ended : (step.account session.active).outcome with
  | error failure =>
    rw [ended] at run
    cases run
  | ok value =>
    rw [ended] at run
    cases run
    rfl

theorem outcome_of_error {step : Resolution α} [Oblivious step] {session after : Session}
    {failure : Failure} (run : step session = .error failure after) :
    step.outcome session.active = .error failure := by
  rw [run_eq step, Account.resume] at run
  unfold outcome
  cases ended : (step.account session.active).outcome with
  | error failure =>
    rw [ended] at run
    cases run
    rfl
  | ok value =>
    rw [ended] at run
    cases run

theorem exists_run_iff {step : Resolution α} [Oblivious step] {session : Session} {value : α} :
    (∃ after, step session = .ok value after) ↔ step.outcome session.active = .ok value := by
  refine ⟨fun ⟨_, run⟩ => outcome_of_ok run, fun ok => ?_⟩
  change (step.account session.active).outcome = .ok value at ok
  exact ⟨_, by rw [run_eq step, Account.resume, ok]⟩

/-! ## Steps -/

theorem run_pure (value : α) (session : Session) :
    (pure value : Resolution α) session = (Account.pure value).resume session := rfl

instance oblivious_pure (value : α) : Oblivious (pure value : Resolution α) :=
  oblivious_of_accounts (fun _ => .pure value) (run_pure value)

theorem bind_of_ok {step : Resolution α} {next : α → Resolution β} {session after : Session}
    {value : α} (run : step session = .ok value after) :
    (step >>= next) session = next value after := by
  change EStateM.bind step next session = _
  rw [EStateM.bind, run]

theorem run_bind (step : Resolution α) (next : α → Resolution β) [Oblivious step]
    [∀ value, Oblivious (next value)] (session : Session) :
    (step >>= next) session = ((step.account session.active).bind fun value =>
      (next value).account session.active).resume session := by
  change EStateM.bind step next session = _
  unfold EStateM.bind Account.bind
  rw [run_eq step]
  cases ended : (step.account session.active).outcome with
  | error failure => simp only [Account.resume, ended]
  | ok value =>
    simp only [Account.resume, ended]
    rw [run_eq (next value), Session.replay_active]
    simp only [Account.resume]
    cases ((next value).account session.active).outcome <;>
      simp only [Session.replay_append]

instance oblivious_bind (step : Resolution α) (next : α → Resolution β) [Oblivious step]
    [∀ value, Oblivious (next value)] : Oblivious (step >>= next) :=
  oblivious_of_accounts (fun active => (step.account active).bind fun value =>
    (next value).account active) (run_bind step next)

theorem account_bind (step : Resolution α) (next : α → Resolution β) [Oblivious step]
    [∀ value, Oblivious (next value)] (active : List String) :
    (step >>= next).account active =
      (step.account active).bind fun value => (next value).account active :=
  account_eq fun store journal => run_bind step next ⟨store, active, journal⟩

theorem outcome_bind (step : Resolution α) (next : α → Resolution β) [Oblivious step]
    [∀ value, Oblivious (next value)] (active : List String) :
    (step >>= next).outcome active =
      step.outcome active >>= fun value => (next value).outcome active := by
  simp only [outcome, account_bind, Account.bind]
  cases (step.account active).outcome <;> rfl

theorem run_throw (failure : Failure) (session : Session) :
    (throw failure : Resolution α) session =
      (⟨.error failure, []⟩ : Account α).resume session := rfl

instance oblivious_throw (failure : Failure) : Oblivious (throw failure : Resolution α) :=
  oblivious_of_accounts (fun _ => ⟨.error failure, []⟩) (run_throw failure)

instance oblivious_fault (reason : ImportFault) (span : Span) :
    Oblivious (fault reason span : Resolution α) :=
  oblivious_throw _

instance oblivious_log (level : LogLevel) (message : String) : Oblivious (log level message) :=
  oblivious_of_accounts (fun _ => ⟨.ok (), [.logged ⟨level, message⟩]⟩) fun _ => rfl

instance oblivious_store (name : String) (definition : Definition) :
    Oblivious (store name definition) :=
  oblivious_of_accounts (fun _ => ⟨.ok (), [.stored name definition]⟩) fun _ => rfl

def parseAccount (workspace : Workspace) (path : String) : Account File :=
  ⟨(workspace.parseFile path).mapError .badSource, [.opened path]⟩

theorem run_parseFile (workspace : Workspace) (path : String) (session : Session) :
    parseFile workspace path session = (parseAccount workspace path).resume session := by
  unfold parseFile parseAccount
  cases workspace.parseFile path <;> rfl

instance oblivious_parseFile (workspace : Workspace) (path : String) :
    Oblivious (parseFile workspace path) :=
  oblivious_of_accounts (fun _ => parseAccount workspace path)
    (run_parseFile workspace path)

/-! ## Going into a file -/

def insideAccount (workspace : Workspace) (path : String) (span : Span)
    (body : List String → Account Unit) (active : List String) : Account Unit :=
  match workspace.resolve path with
  | .error error => ⟨.error (.system error), []⟩
  | .ok path =>
    if path ∈ active then ⟨.error (.badImport ⟨.cycle (cycleThrough active path), some span⟩), []⟩
    else ⟨(body (path :: active)).outcome, .entered path :: (body (path :: active)).events ++ [.left path]⟩

theorem run_inside (workspace : Workspace) (path : String) (span : Span) (body : Resolution Unit)
    [Oblivious body] (session : Session) :
    inside workspace path span body session =
      (insideAccount workspace path span body.account session.active).resume session := by
  unfold inside insideAccount
  cases workspace.resolve path with
  | error error => rfl
  | ok key =>
    change (if key ∈ session.active then _ else _ : Resolution Unit) session = _
    by_cases within : key ∈ session.active
    · simp only [if_pos within]
      rfl
    · let entered : Session :=
        ⟨session.store, key :: session.active, .entered key :: session.journal⟩
      have done : body entered = (body.account (key :: session.active)).resume entered :=
        run_eq body entered
      have left (events : List Event) :
          (⟨(entered.replay events).store, session.active, .left key ::
            (entered.replay events).journal⟩ : Session) =
            session.replay (.entered key :: events ++ [.left key]) := by
        simp [Session.replay, entered, DefinitionStore.apply]
      simp only [if_neg within]
      change tryFinally body _ entered = _
      simp only [tryFinally, tryFinally', Functor.map, EStateM.map, done, Account.resume]
      rw [← left]
      cases (body.account (key :: session.active)).outcome <;> rfl

instance oblivious_inside (workspace : Workspace) (path : String) (span : Span)
    (body : Resolution Unit) [Oblivious body] : Oblivious (inside workspace path span body) :=
  oblivious_of_accounts (insideAccount workspace path span body.account)
    (run_inside workspace path span body)

@[simp] theorem account_inside (workspace : Workspace) (path : String) (span : Span)
    (body : Resolution Unit) [Oblivious body] (active : List String) :
    (inside workspace path span body).account active =
      insideAccount workspace path span body.account active :=
  account_eq fun _ _ => run_inside workspace path span body _

theorem oblivious_forM {ι : Type} {step : ι → Resolution Unit} (items : List ι)
    (each : ∀ item, Oblivious (step item)) : Oblivious (items.forM step) := by
  induction items with
  | nil => exact oblivious_pure ()
  | cons first rest ih => exact oblivious_bind (step first) fun _ => rest.forM step

theorem outcome_inside (workspace : Workspace) (path : String) (span : Span)
    (body : Resolution Unit) [Oblivious body] (active : List String) :
    (inside workspace path span body).outcome active =
      match workspace.resolve path with
      | .error error => .error (.system error)
      | .ok path =>
        if path ∈ active then .error (.badImport ⟨.cycle (cycleThrough active path), some span⟩)
        else body.outcome (path :: active) := by
  rw [outcome, account_inside, insideAccount]
  cases workspace.resolve path with
  | error error => rfl
  | ok key =>
    by_cases within : key ∈ active
    · simp only [if_pos within]
    · simp only [if_neg within]
      rfl

theorem outcome_forM_ok {ι : Type} {step : ι → Resolution Unit} {items : List ι}
    {active : List String} (each : ∀ item, Oblivious (step item))
    (ok : (items.forM step).outcome active = .ok ()) :
    ∀ item ∈ items, (step item).outcome active = .ok () := by
  induction items with
  | nil => simp
  | cons first rest ih =>
    have others := oblivious_forM rest each
    change (step first >>= fun _ => rest.forM step).outcome active = _ at ok
    rw [outcome_bind] at ok
    cases head : (step first).outcome active with
    | error failure =>
      rw [head] at ok
      cases ok
    | ok value =>
      rw [head] at ok
      simpa [head] using ih ok

theorem outcome_forM_error {ι : Type} {step : ι → Resolution Unit} {items : List ι}
    {active : List String} {failure : Failure} (each : ∀ item, Oblivious (step item))
    (failed : (items.forM step).outcome active = .error failure) :
    ∃ item ∈ items, (step item).outcome active = .error failure := by
  induction items with
  | nil => cases failed
  | cons first rest ih =>
    have others := oblivious_forM rest each
    change (step first >>= fun _ => rest.forM step).outcome active = _ at failed
    rw [outcome_bind] at failed
    cases head : (step first).outcome active with
    | error earlier =>
      rw [head] at failed
      cases failed
      exact ⟨first, List.mem_cons_self, head⟩
    | ok value =>
      rw [head] at failed
      obtain ⟨item, member, failed⟩ := ih failed
      exact ⟨item, List.mem_cons_of_mem _ member, failed⟩

end Resolution

/-! ## The resolver -/

namespace Resolver
open Resolution

def loadEvents (workspace : Workspace) (entry : Entry) : List Event :=
  match workspace.isDirectory entry.rawPath, entry.fileName with
  | .ok false, some _ => [.inspected entry.rawPath, .opened entry.path]
  | _, _ => [.inspected entry.rawPath]

theorem run_isDirectory (workspace : Workspace) (entry : Entry) (session : Session) :
    isDirectory workspace entry session =
      .ok (workspace.isDirectory entry.rawPath) (session.replay [.inspected entry.rawPath]) := rfl

theorem run_entries (workspace : Workspace) (directory : String) (session : Session) :
    entries workspace directory session =
      .ok (workspace.entries directory) (session.replay [.listed directory]) := rfl

theorem run_loadEntry (workspace : Workspace) (entry : Entry) (span : Span) (session : Session) :
    loadEntry workspace entry span session =
      (⟨workspace.loadOf entry span, loadEvents workspace entry⟩ : Account Program).resume
        session := by
  rw [loadEntry, bind_of_ok (run_isDirectory ..)]
  unfold Workspace.loadOf loadEvents
  cases workspace.isDirectory entry.rawPath with
  | error cause => rfl
  | ok directory =>
    cases entry.fileName with
    | none => cases directory <;> rfl
    | some name =>
      cases directory with
      | true => rfl
      | false =>
        dsimp only
        rw [if_neg (by simp)]
        change EStateM.bind _ _ _ = _
        rw [EStateM.bind, run_parseFile, parseAccount]
        cases workspace.parseFile entry.path <;> rfl

instance oblivious_loadEntry (workspace : Workspace) (entry : Entry) (span : Span) :
    Oblivious (loadEntry workspace entry span) :=
  oblivious_of_accounts
    (fun _ => ⟨workspace.loadOf entry span, loadEvents workspace entry⟩)
    (run_loadEntry workspace entry span)

@[simp] theorem account_loadEntry (workspace : Workspace) (entry : Entry) (span : Span)
    (active : List String) : (loadEntry workspace entry span).account active =
      ⟨workspace.loadOf entry span, loadEvents workspace entry⟩ :=
  account_eq fun _ _ => run_loadEntry workspace entry span _

theorem run_candidates (resolver : Resolver) (directory : String) (name : Identifier)
    (session : Session) : resolver.candidates directory name session =
      (⟨resolver.candidatesOf directory name, [.listed (Path.join directory sourceDirectory)]⟩ :
        Account Candidates).resume session := by
  rw [candidates, bind_of_ok (run_entries ..)]
  unfold candidatesOf
  dsimp only
  cases resolver.workspace.entries (Path.join directory sourceDirectory) with
  | error cause => rfl
  | ok entries =>
    dsimp only
    cases entries.filter (·.packageName = name.name) <;> rfl

instance oblivious_candidates (resolver : Resolver) (directory : String) (name : Identifier) :
    Oblivious (resolver.candidates directory name) :=
  oblivious_of_accounts (fun _ => ⟨resolver.candidatesOf directory name, _⟩)
    (run_candidates resolver directory name)

@[simp] theorem account_candidates (resolver : Resolver) (directory : String) (name : Identifier)
    (active : List String) : (resolver.candidates directory name).account active =
      ⟨resolver.candidatesOf directory name, [.listed (Path.join directory sourceDirectory)]⟩ :=
  account_eq fun _ _ => run_candidates resolver directory name _

def inspections (resolver : Resolver) (wantDirectory : Bool) : List Entry → List Event
  | [] => []
  | entry :: rest =>
    .inspected entry.rawPath ::
      if resolver.isOfKind wantDirectory entry then [] else resolver.inspections wantDirectory rest

theorem firstOfKind_cons (resolver : Resolver) (wantDirectory : Bool) (entry : Entry)
    (rest : List Entry) : resolver.firstOfKind wantDirectory (entry :: rest) = (do
      note (.inspected entry.rawPath)
      if resolver.isOfKind wantDirectory entry then return some entry
      else resolver.firstOfKind wantDirectory rest) := by
  cases kind : resolver.workspace.isDirectory entry.rawPath <;>
    simp [firstOfKind, Resolution.isDirectory, isOfKind, kind]

theorem run_firstOfKind (resolver : Resolver) (wantDirectory : Bool) (entries : List Entry)
    (session : Session) : resolver.firstOfKind wantDirectory entries session =
      (⟨.ok (entries.find? (resolver.isOfKind wantDirectory)),
        resolver.inspections wantDirectory entries⟩ : Account (Option Entry)).resume session := by
  induction entries generalizing session with
  | nil => rfl
  | cons entry rest ih =>
    have goOn : resolver.firstOfKind wantDirectory rest (session.replay [.inspected entry.rawPath]) =
        (⟨.ok (rest.find? (resolver.isOfKind wantDirectory)), .inspected entry.rawPath ::
          resolver.inspections wantDirectory rest⟩ : Account (Option Entry)).resume session := by
      rw [ih]
      simp only [Account.resume, ← Session.replay_append, List.singleton_append]
    rw [firstOfKind_cons, inspections, List.find?_cons]
    cases resolver.isOfKind wantDirectory entry with
    | true => rfl
    | false => exact goOn

def selectionEvents (resolver : Resolver) (name : Identifier) (candidates : Candidates)
    (wantDirectory : Bool) : List Event :=
  let entry := resolver.selected candidates wantDirectory
  let all := candidates.first :: candidates.others
  (if candidates.others = [] then []
  else resolver.inspections wantDirectory all ++
    [.logged ⟨.warn, String.join ["package ", name.name, " matches ",
      ", ".intercalate (all.map Entry.path), "; using ", entry.path]⟩]) ++
  [.logged ⟨.debug, String.join ["resolving package ", name.name, " from ", entry.path]⟩]

theorem run_choose (resolver : Resolver) (name : Identifier) (candidates : Candidates)
    (wantDirectory : Bool) (session : Session) :
    resolver.choose name candidates wantDirectory session =
      (⟨.ok (resolver.selected candidates wantDirectory),
        resolver.selectionEvents name candidates wantDirectory⟩ : Account Entry).resume session := by
  obtain ⟨first, others⟩ := candidates
  cases others with
  | nil => rfl
  | cons second others =>
    have searched : resolver.choose name ⟨first, second :: others⟩ wantDirectory session =
        EStateM.bind (resolver.firstOfKind wantDirectory (first :: second :: others))
          (fun found => do
            log .warn (String.join ["package ", name.name, " matches ",
              ", ".intercalate ((first :: second :: others).map Entry.path), "; using ",
              (found.getD first).path])
            log .debug (String.join ["resolving package ", name.name, " from ",
              (found.getD first).path])
            return found.getD first) session := rfl
    rw [searched, EStateM.bind, run_firstOfKind]
    simp only [Account.resume, selected, selectionEvents, reduceCtorEq, if_false,
      Session.replay_append]
    rfl

instance oblivious_choose (resolver : Resolver) (name : Identifier) (candidates : Candidates)
    (wantDirectory : Bool) : Oblivious (resolver.choose name candidates wantDirectory) :=
  oblivious_of_accounts
    (fun _ => ⟨.ok (resolver.selected candidates wantDirectory), _⟩)
    (run_choose resolver name candidates wantDirectory)

@[simp] theorem account_choose (resolver : Resolver) (name : Identifier) (candidates : Candidates)
    (wantDirectory : Bool) (active : List String) :
    (resolver.choose name candidates wantDirectory).account active =
      ⟨.ok (resolver.selected candidates wantDirectory),
        resolver.selectionEvents name candidates wantDirectory⟩ :=
  account_eq fun _ _ => run_choose resolver name candidates wantDirectory _

theorem run_rootPath (resolver : Resolver) (span : Span) (session : Session) :
    resolver.rootPath span session =
      (⟨resolver.rootOf span, []⟩ : Account String).resume session := by
  unfold rootPath rootOf
  cases resolver.root with
  | some root => rfl
  | none => cases resolver.workspace.cwdText <;> rfl

instance oblivious_rootPath (resolver : Resolver) (span : Span) :
    Oblivious (resolver.rootPath span) :=
  oblivious_of_accounts (fun _ => ⟨resolver.rootOf span, _⟩)
    (run_rootPath resolver span)

@[simp] theorem account_rootPath (resolver : Resolver) (span : Span) (active : List String) :
    (resolver.rootPath span).account active = ⟨resolver.rootOf span, []⟩ :=
  account_eq fun _ _ => run_rootPath resolver span _

instance oblivious_define (imports : Imports) [∀ scope statements, Oblivious (imports scope statements)]
    (program : Program) : Oblivious (define imports program) :=
  @oblivious_bind _ _ _ _ inferInstance fun _ => oblivious_forM _ fun _ => inferInstance

instance oblivious_takeAll (resolver : Resolver) (imports : Imports)
    [∀ scope statements, Oblivious (imports scope statements)] (scope : String) (entry : Entry)
    (span : Span) :
    Oblivious (resolver.takeAll imports scope entry span) := by
  unfold takeAll
  infer_instance

instance oblivious_takeSymbol (resolver : Resolver) (imports : Imports)
    [∀ scope statements, Oblivious (imports scope statements)] (scope : String) (entry : Entry)
    (symbol : ImportSymbol) :
    Oblivious (resolver.takeSymbol imports scope entry symbol) := by
  refine @oblivious_bind _ _ _ _ inferInstance fun program => ?_
  dsimp only
  split <;> infer_instance

mutual

instance oblivious_takeFrom (resolver : Resolver) (imports : Imports)
    [∀ scope statements, Oblivious (imports scope statements)] (scope : String) (name : Identifier)
    (candidates : Candidates) (access : Access) :
    Oblivious (resolver.takeFrom imports scope name candidates access) := by
  cases access with
  | star span =>
    rw [takeFrom]
    infer_instance
  | symbol symbol =>
    rw [takeFrom]
    infer_instance
  | subPackage inner access span =>
    rw [takeFrom]
    have inside := fun candidates =>
      oblivious_takeFrom resolver imports scope inner candidates access
    infer_instance
  | multiple accesses span =>
    rw [takeFrom]
    exact oblivious_takeEachFrom resolver imports scope name candidates accesses

instance oblivious_takeEachFrom (resolver : Resolver) (imports : Imports)
    [∀ scope statements, Oblivious (imports scope statements)] (scope : String) (name : Identifier)
    (candidates : Candidates) (accesses : List Access) :
    Oblivious (resolver.takeEachFrom imports scope name candidates accesses) := by
  cases accesses with
  | nil =>
    rw [takeEachFrom]
    infer_instance
  | cons first rest =>
    rw [takeEachFrom]
    have head := oblivious_takeFrom resolver imports scope name candidates first
    have tail := oblivious_takeEachFrom resolver imports scope name candidates rest
    infer_instance

end

instance oblivious_takePackage (resolver : Resolver) (imports : Imports)
    [∀ scope statements, Oblivious (imports scope statements)] (scope directory : String)
    (name : Identifier) (access : Access) :
    Oblivious (resolver.takePackage imports scope directory name access) :=
  @oblivious_bind _ _ _ _ inferInstance fun _ => oblivious_takeFrom resolver imports _ _ _ _

mutual

instance oblivious_takeEntry (resolver : Resolver) (imports : Imports)
    [∀ scope statements, Oblivious (imports scope statements)] (scope : String) (entry : Entry)
    (access : Access) : Oblivious (resolver.takeEntry imports scope entry access) := by
  cases access with
  | star span => exact oblivious_takeAll resolver imports scope entry span
  | symbol symbol => exact oblivious_takeSymbol resolver imports scope entry symbol
  | subPackage inner access span =>
    exact oblivious_takePackage resolver imports scope entry.path inner access
  | multiple accesses span => exact oblivious_takeEachEntry resolver imports scope entry accesses

instance oblivious_takeEachEntry (resolver : Resolver) (imports : Imports)
    [∀ scope statements, Oblivious (imports scope statements)] (scope : String) (entry : Entry)
    (accesses : List Access) :
    Oblivious (resolver.takeEachEntry imports scope entry accesses) := by
  cases accesses with
  | nil => exact oblivious_pure ()
  | cons first rest =>
    have head := oblivious_takeEntry resolver imports scope entry first
    have tail := oblivious_takeEachEntry resolver imports scope entry rest
    exact oblivious_bind _ _

end

instance oblivious_importsWithin (resolver : Resolver) (depth : Nat) (scope : String)
    (statements : List Import) : Oblivious (resolver.importsWithin depth scope statements) := by
  induction depth generalizing scope statements with
  | zero =>
    rw [importsWithin]
    infer_instance
  | succ depth ih =>
    rw [importsWithin]
    exact oblivious_forM _ fun _ => inferInstance

instance oblivious_imports (resolver : Resolver) (scope : String) (statements : List Import) :
    Oblivious (resolver.imports scope statements) :=
  oblivious_importsWithin resolver _ scope statements

instance oblivious_resolveDefinitions (resolver : Resolver) (program : Program) :
    Oblivious (resolver.resolveDefinitions program) :=
  oblivious_define resolver.imports program

instance oblivious_resolveProgram (resolver : Resolver) (program : Program)
    (path : Option String) : Oblivious (resolver.resolveProgram program path) := by
  cases path with
  | none => exact oblivious_resolveDefinitions resolver program
  | some path => exact oblivious_inside _ _ _ _

end Resolver

end LeoFront

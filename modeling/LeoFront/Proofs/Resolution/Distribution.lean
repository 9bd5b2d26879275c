import LeoFront.Proofs.Grammar.Nesting
import LeoFront.Proofs.Resolution.Taking
import LeoFront.Proofs.RoundTrip.Tree

namespace LeoFront

/-! ## Parts of an import -/

mutual

/-- The accesses of one leaf each that an access is made of. -/
def Access.singles : Access → List Access
  | .star span => [.star span]
  | .symbol taken => [.symbol taken]
  | .subPackage name access span => access.singles.map (.subPackage name · span)
  | .multiple accesses _ => Access.singlesOfEach accesses

def Access.singlesOfEach : List Access → List Access
  | [] => []
  | first :: rest => first.singles ++ Access.singlesOfEach rest

end

def Import.taking (statement : Import) (access : Access) : Import :=
  { statement with package := { statement.package with access := access } }

def Import.singles (statement : Import) : List Import :=
  statement.package.access.singles.map statement.taking

mutual

def Access.Full : Access → Prop
  | .star _ | .symbol _ => True
  | .subPackage _ access _ => access.Full
  | .multiple accesses _ => accesses ≠ [] ∧ Access.EachFull accesses

def Access.EachFull : List Access → Prop
  | [] => True
  | first :: rest => first.Full ∧ Access.EachFull rest

end

theorem Access.eachFull_iff {accesses : List Access} :
    Access.EachFull accesses ↔ ∀ access ∈ accesses, access.Full := by
  induction accesses with
  | nil => simp [Access.EachFull]
  | cons first rest ih => rw [Access.EachFull, ih, List.forall_mem_cons]

theorem Access.singles_ne_nil (access : Access) (full : access.Full) : access.singles ≠ [] := by
  cases access with
  | star span => exact List.cons_ne_nil _ _
  | symbol symbol => exact List.cons_ne_nil _ _
  | subPackage name access span =>
    rw [Access.singles, ne_eq, List.map_eq_nil_iff]
    exact access.singles_ne_nil full
  | multiple accesses span =>
    obtain ⟨nonempty, each⟩ := full
    cases accesses with
    | nil => exact absurd rfl nonempty
    | cons first rest =>
      rw [Access.singles, Access.singlesOfEach]
      exact List.append_ne_nil_of_left_ne_nil (first.singles_ne_nil each.1) _

namespace Grammar
open LeoFront.Parser

theorem accessWithin_full {bound : List Char} {cursor after : Cursor} {access : Access}
    (read : (accessWithin bound cursor).result = some (access, after)) : access.Full := by
  induction bound generalizing cursor access after with
  | nil => cases read
  | cons c bound ih =>
    rw [accessWithin] at read
    obtain ⟨span, rfl⟩ | ⟨symbol, rfl⟩ | ⟨accesses, span, rfl, nonempty, each⟩ |
      ⟨name, inner, span, rfl, within⟩ := accessOver_cases read
    · trivial
    · trivial
    · refine ⟨nonempty, Access.eachFull_iff.mpr fun inner member => ?_⟩
      obtain ⟨here, onward, -, read⟩ := each inner member
      exact ih read
    · obtain ⟨here, onward, -, read⟩ := within
      have inside : inner.Full := ih read
      exact inside

end Grammar

theorem File.parse_full {text : String} {name : Option String} {file : File}
    (parsed : File.parse text name = .ok file) :
    ∀ statement ∈ file.imports, statement.package.access.Full := by
  intro statement member
  obtain ⟨here, onward, -, read⟩ := File.parse_import parsed statement member
  obtain ⟨place, after, -, read⟩ := Grammar.importStatement_access read
  exact Grammar.accessWithin_full read

/-! ## Where the parts lead -/

namespace Route

theorem nil_append (route : Route) : (⟨[], none⟩ : Route) ++ route = route :=
  append_of_open rfl

theorem append_nil (route : Route) : route ++ (⟨[], none⟩ : Route) = route := by
  obtain ⟨leaves, none | failure⟩ := route
  · rw [append_of_open rfl, List.append_nil]
  · exact append_of_stop rfl

theorem append_assoc (first second third : Route) :
    first ++ second ++ third = first ++ (second ++ third) := by
  obtain ⟨leaves, none | failure⟩ := first
  · obtain ⟨more, none | failure⟩ := second
    · simp only [append_of_open, List.append_assoc]
    · rfl
  · rfl

theorem stopped_append (failure : Failure) (route : Route) :
    stopped failure ++ route = stopped failure :=
  append_of_stop rfl

def behind {α : Type} (search : Except Failure α) (next : α → Route) : Route :=
  match search with
  | .error failure => stopped failure
  | .ok found => next found

end Route

namespace Resolver
variable {resolver : Resolver} {candidates : Candidates}

theorem route_subPackage (name : Identifier) (access : Access) (span : Span) :
    resolver.route candidates (.subPackage name access span) =
      .behind (resolver.candidatesOf (resolver.selected candidates true).path name)
        fun inside => resolver.route inside access := by
  rw [route]
  cases resolver.candidatesOf (resolver.selected candidates true).path name <;> rfl

theorem routeOf_eq (statement : Import) : resolver.routeOf statement =
    .behind (resolver.rootOf statement.span) fun root =>
      .behind (resolver.candidatesOf root statement.package.name) fun candidates =>
        resolver.route candidates statement.package.access := by
  unfold routeOf
  cases resolver.rootOf statement.span with
  | error failure => rfl
  | ok root =>
    dsimp only [Route.behind]
    cases resolver.candidatesOf root statement.package.name <;> rfl

theorem routeEach_append (first second : List Access) :
    resolver.routeEach candidates (first ++ second) =
      resolver.routeEach candidates first ++ resolver.routeEach candidates second := by
  induction first with
  | nil => exact (Route.nil_append _).symm
  | cons access rest ih => rw [List.cons_append, routeEach, routeEach, ih, Route.append_assoc]

theorem routeEach_subPackage (name : Identifier) (span : Span) {accesses : List Access}
    (nonempty : accesses ≠ []) :
    resolver.routeEach candidates (accesses.map (.subPackage name · span)) =
      .behind (resolver.candidatesOf (resolver.selected candidates true).path name)
        fun inside => resolver.routeEach inside accesses := by
  cases found : resolver.candidatesOf (resolver.selected candidates true).path name with
  | error failure =>
    obtain ⟨first, rest, rfl⟩ := List.exists_cons_of_ne_nil nonempty
    rw [List.map_cons, routeEach, route_subPackage, found]
    exact Route.stopped_append failure _
  | ok inside =>
    clear nonempty
    induction accesses with
    | nil => rfl
    | cons first rest ih =>
      rw [List.map_cons, routeEach, ih, route_subPackage, found]
      rfl

mutual

theorem routeEach_singles {candidates : Candidates} (access : Access) (full : access.Full) :
    resolver.routeEach candidates access.singles = resolver.route candidates access := by
  cases access with
  | star span => exact Route.append_nil _
  | symbol symbol => exact Route.append_nil _
  | subPackage name access span =>
    rw [Access.singles, routeEach_subPackage name span (access.singles_ne_nil full),
      route_subPackage]
    congr 1
    funext inside
    exact routeEach_singles access full
  | multiple accesses span => exact routeEach_singlesOfEach accesses full.2

theorem routeEach_singlesOfEach {candidates : Candidates} (accesses : List Access)
    (full : Access.EachFull accesses) :
    resolver.routeEach candidates (Access.singlesOfEach accesses) =
      resolver.routeEach candidates accesses := by
  cases accesses with
  | nil => rfl
  | cons first rest =>
    rw [Access.singlesOfEach, routeEach_append, routeEach_singles first full.1,
      routeEach_singlesOfEach rest full.2, routeEach]

end

theorem routeOfAll_taking (statement : Import) {accesses : List Access}
    (nonempty : accesses ≠ []) : resolver.routeOfAll (accesses.map statement.taking) =
      .behind (resolver.rootOf statement.span) fun root =>
        .behind (resolver.candidatesOf root statement.package.name) fun candidates =>
          resolver.routeEach candidates accesses := by
  have each (access : Access) : resolver.routeOf (statement.taking access) =
      .behind (resolver.rootOf statement.span) fun root =>
        .behind (resolver.candidatesOf root statement.package.name) fun candidates =>
          resolver.route candidates access := routeOf_eq _
  cases rooted : resolver.rootOf statement.span with
  | error failure =>
    obtain ⟨first, rest, rfl⟩ := List.exists_cons_of_ne_nil nonempty
    rw [List.map_cons, routeOfAll, each, rooted]
    exact Route.stopped_append failure _
  | ok root =>
    cases found : resolver.candidatesOf root statement.package.name with
    | error failure =>
      obtain ⟨first, rest, rfl⟩ := List.exists_cons_of_ne_nil nonempty
      rw [List.map_cons, routeOfAll, each, rooted]
      simp only [Route.behind, found]
      exact Route.stopped_append failure _
    | ok candidates =>
      simp only [Route.behind, found]
      clear nonempty
      induction accesses with
      | nil => rfl
      | cons first rest ih =>
        rw [List.map_cons, routeOfAll, ih, each, rooted, routeEach]
        simp only [Route.behind, found]

theorem routeOfAll_singles (statement : Import) (full : statement.package.access.Full) :
    resolver.routeOfAll statement.singles = resolver.routeOf statement := by
  rw [Import.singles, routeOfAll_taking statement (Access.singles_ne_nil _ full), routeOf_eq]
  simp only [routeEach_singles _ full]

theorem routeOfAll_append (first second : List Import) : resolver.routeOfAll (first ++ second) =
    resolver.routeOfAll first ++ resolver.routeOfAll second := by
  induction first with
  | nil => exact (Route.nil_append _).symm
  | cons statement rest ih => rw [List.cons_append, routeOfAll, routeOfAll, ih, Route.append_assoc]

theorem routeOfAll_flatMap_singles (statements : List Import)
    (full : ∀ statement ∈ statements, statement.package.access.Full) :
    resolver.routeOfAll (statements.flatMap Import.singles) = resolver.routeOfAll statements := by
  induction statements with
  | nil => rfl
  | cons statement rest ih =>
    obtain ⟨here, later⟩ := List.forall_mem_cons.mp full
    rw [List.flatMap_cons, routeOfAll_append, routeOfAll_singles statement here, ih later, routeOfAll]

end Resolver

/-! ## Places -/

def Failure.erase : Failure → Failure
  | .badImport error => .badImport ⟨error.fault, none⟩
  | .badSource error => .badSource error
  | .system error => .system error
  | .tooDeep => .tooDeep

def Taking.erase : Taking → Taking
  | .everything _ => .everything .none
  | .symbol taken => .symbol taken.erase

def Route.erase (route : Route) : Route :=
  ⟨route.leaves.map fun leaf => (leaf.1, leaf.2.erase), route.stop.map Failure.erase⟩

theorem Route.erase_append (first second : Route) :
    (first ++ second).erase = first.erase ++ second.erase := by
  obtain ⟨leaves, none | failure⟩ := first
  · rw [append_of_open rfl, append_of_open rfl]
    simp [erase]
  · rw [append_of_stop rfl, append_of_stop rfl]

namespace Account
variable {α β : Type}

def erase (account : Account α) : Account α :=
  ⟨account.outcome.mapError Failure.erase, account.events⟩

theorem erase_bind (first : Account α) (next : α → Account β) :
    (first.bind next).erase = first.erase.bind fun value => (next value).erase := by
  obtain ⟨failure | value, events⟩ := first <;> rfl

end Account

theorem ImportSymbol.erase_erase (symbol : ImportSymbol) : symbol.erase.erase = symbol.erase := by
  obtain ⟨name, renamed, span⟩ := symbol
  cases renamed <;> rfl

theorem ImportSymbol.names_of_erase {symbol other : ImportSymbol}
    (same : symbol.erase = other.erase) :
    symbol.symbol.name = other.symbol.name ∧ symbol.localName = other.localName := by
  obtain ⟨⟨name, span⟩, renamed, place⟩ := symbol
  obtain ⟨⟨name', span'⟩, renamed', place'⟩ := other
  simp only [ImportSymbol.erase, Identifier.erase, ImportSymbol.mk.injEq, Identifier.mk.injEq,
    and_true] at same
  obtain ⟨rfl, sameRenamed⟩ := same
  cases renamed <;> cases renamed' <;> simp_all [ImportSymbol.localName, Identifier.erase]

theorem Route.erase_behind {α : Type} {search other : Except Failure α} {next later : α → Route}
    (same : search.mapError Failure.erase = other.mapError Failure.erase)
    (alike : ∀ found, (next found).erase = (later found).erase) :
    (behind search next).erase = (behind other later).erase := by
  cases search with
  | error failure =>
    cases other with
    | error failure' =>
      have sameFailure : failure.erase = failure'.erase := Except.error.inj same
      simp [behind, erase, stopped, sameFailure]
    | ok found => cases same
  | ok found =>
    cases other with
    | error failure => cases same
    | ok found' =>
      cases same
      exact alike found

namespace Resolver
open Resolution
variable {resolver : Resolver} {imports : Imports} {scope : String} {active : List String}

/-! ### Routes -/

theorem erase_rootOf (span other : Span) : (resolver.rootOf span).mapError Failure.erase =
    (resolver.rootOf other).mapError Failure.erase := by
  unfold rootOf
  split <;> rfl

theorem erase_candidatesOf (directory : String) (name : Identifier) :
    (resolver.candidatesOf directory name).mapError Failure.erase =
      (resolver.candidatesOf directory name.erase).mapError Failure.erase := by
  unfold candidatesOf
  dsimp only
  cases resolver.workspace.entries (Path.join directory sourceDirectory) with
  | error cause => rfl
  | ok entries =>
    have filtered : entries.filter (·.packageName = name.erase.name) =
        entries.filter (·.packageName = name.name) := rfl
    dsimp only
    rw [filtered]
    cases entries.filter (·.packageName = name.name) <;> rfl

mutual

theorem route_erase (candidates : Candidates) (access : Access) :
    (resolver.route candidates access).erase = (resolver.route candidates access.erase).erase := by
  cases access with
  | star span => rfl
  | symbol symbol =>
    rw [Access.erase, route, route, Route.erase, Route.erase]
    simp only [List.map_cons, List.map_nil, Taking.erase, ImportSymbol.erase_erase]
  | subPackage name access span =>
    rw [Access.erase, route_subPackage, route_subPackage]
    exact Route.erase_behind (erase_candidatesOf _ name) fun inside => route_erase inside access
  | multiple accesses span =>
    rw [Access.erase, route, route]
    exact routeEach_erase candidates accesses

theorem routeEach_erase (candidates : Candidates) (accesses : List Access) :
    (resolver.routeEach candidates accesses).erase =
      (resolver.routeEach candidates (Access.eraseEach accesses)).erase := by
  cases accesses with
  | nil => rfl
  | cons first rest =>
    rw [Access.eraseEach, routeEach, routeEach, Route.erase_append, Route.erase_append,
      route_erase candidates first, routeEach_erase candidates rest]

end

theorem routeOf_erase (statement : Import) :
    (resolver.routeOf statement).erase = (resolver.routeOf statement.erase).erase := by
  rw [routeOf_eq, routeOf_eq]
  refine Route.erase_behind (erase_rootOf ..) fun root => ?_
  exact Route.erase_behind (erase_candidatesOf root _) fun candidates => route_erase candidates _

theorem routeOfAll_erase (statements : List Import) :
    (resolver.routeOfAll statements).erase =
      (resolver.routeOfAll (statements.map Import.erase)).erase := by
  induction statements with
  | nil => rfl
  | cons first rest ih =>
    rw [List.map_cons, routeOfAll, routeOfAll, Route.erase_append, Route.erase_append, ih,
      routeOf_erase]

/-! ### Effects -/

theorem erase_loadOf (workspace : Workspace) (entry : Entry) (span other : Span) :
    (workspace.loadOf entry span).mapError Failure.erase =
      (workspace.loadOf entry other).mapError Failure.erase := by
  unfold Workspace.loadOf
  split
  · rfl
  · rfl
  · rfl
  · split <;> rfl

theorem erase_effect_inside (workspace : Workspace) (path : String) (span other : Span)
    (body : Resolution Unit) [Oblivious body] :
    ((inside workspace path span body).effect active).erase =
      ((inside workspace path other body).effect active).erase := by
  rw [effect_inside, effect_inside]
  cases workspace.resolve path with
  | error error => rfl
  | ok key =>
    by_cases within : key ∈ active
    · simp only [if_pos within]
      rfl
    · simp only [if_neg within]

variable [∀ scope statements, Oblivious (imports scope statements)]

theorem take_erase (entry : Entry) {taking other : Taking} (same : taking.erase = other.erase) :
    ((resolver.take imports scope entry taking).effect active).erase =
      ((resolver.take imports scope entry other).effect active).erase := by
  have loads (span place : Span) :
      Account.erase (⟨resolver.workspace.loadOf entry span, []⟩ : Account Program) =
        Account.erase ⟨resolver.workspace.loadOf entry place, []⟩ := by
    rw [Account.erase, Account.erase, erase_loadOf _ _ span place]
  cases taking with
  | everything span =>
    cases other with
    | symbol symbol => cases same
    | everything place =>
      change ((resolver.takeAll imports scope entry span).effect active).erase =
        ((resolver.takeAll imports scope entry place).effect active).erase
      rw [effect_takeAll, effect_takeAll, Account.erase_bind, Account.erase_bind, loads span place]
      simp only [erase_effect_inside _ _ span place]
  | symbol symbol =>
    cases other with
    | everything place => cases same
    | symbol symbol' =>
      obtain ⟨sameName, sameLocal⟩ := ImportSymbol.names_of_erase (Taking.symbol.inj same)
      change ((resolver.takeSymbol imports scope entry symbol).effect active).erase =
        ((resolver.takeSymbol imports scope entry symbol').effect active).erase
      rw [effect_takeSymbol, effect_takeSymbol, Account.erase_bind, Account.erase_bind,
        loads symbol.span symbol'.span, sameName, sameLocal]
      congr 1
      funext program
      cases program.definition? symbol'.symbol.name symbol'.localName with
      | none => rfl
      | some definition =>
        dsimp only
        rw [Account.erase_bind, Account.erase_bind]
        simp only [erase_effect_inside _ _ symbol.span symbol'.span]

theorem halt_erase {stop other : Option Failure}
    (same : stop.map Failure.erase = other.map Failure.erase) :
    ((halt stop).effect active).erase = ((halt other).effect active).erase := by
  cases stop with
  | none =>
    cases other with
    | none => rfl
    | some failure => cases same
  | some failure =>
    cases other with
    | none => cases same
    | some failure' =>
      change Account.mk (.error failure.erase) [] = Account.mk (.error failure'.erase) []
      rw [Option.some.inj same]

theorem leaves_erase {leaves others : List (Entry × Taking)}
    (same : leaves.map (fun leaf => (leaf.1, leaf.2.erase)) =
      others.map fun leaf => (leaf.1, leaf.2.erase)) :
    ((leaves.forM fun leaf => resolver.take imports scope leaf.1 leaf.2).effect active).erase =
      ((others.forM fun leaf => resolver.take imports scope leaf.1 leaf.2).effect active).erase := by
  induction leaves generalizing others with
  | nil =>
    cases others with
    | nil => rfl
    | cons first rest => cases same
  | cons first rest ih =>
    cases others with
    | nil => cases same
    | cons first' rest' =>
      obtain ⟨entry, taking⟩ := first
      obtain ⟨entry', taking'⟩ := first'
      obtain ⟨sameFirst, sameRest⟩ := List.cons.inj same
      obtain ⟨rfl, sameTaking⟩ := Prod.mk.inj sameFirst
      have behind := oblivious_leaves resolver imports scope rest
      have behind' := oblivious_leaves resolver imports scope rest'
      change ((resolver.take imports scope entry taking >>= fun _ => rest.forM _).effect
        active).erase = ((resolver.take imports scope entry taking' >>= fun _ =>
          rest'.forM _).effect active).erase
      rw [effect_bind, effect_bind, Account.erase_bind, Account.erase_bind,
        take_erase entry sameTaking, ih sameRest]

theorem follow_erase {route other : Route} (same : route.erase = other.erase) :
    ((resolver.follow imports scope route).effect active).erase =
      ((resolver.follow imports scope other).effect active).erase := by
  obtain ⟨sameLeaves, sameStop⟩ := Route.mk.inj same
  rw [effect_follow, effect_follow, Account.erase_bind, Account.erase_bind,
    leaves_erase sameLeaves, halt_erase sameStop]

/-! ## The whole and its parts -/

omit [∀ scope statements, Oblivious (imports scope statements)]

theorem forM_resolveImport (statements : List Import) :
    statements.forM (resolver.resolveImport scope) = resolver.imports scope statements := by
  have one (depth : Nat) (statement : Import) :
      resolver.importsWithin (depth + 1) scope [statement] = (do
        let root ← resolver.rootPath statement.span
        resolver.takePackage (resolver.importsWithin depth) scope root statement.package.name
          statement.package.access) := by
    rw [importsWithin]
    exact bind_pure_unit
  unfold resolveImport imports
  rw [Tree.importDepth, importsWithin]
  simp only [one]

def verdict : EStateM.Result Failure Session Unit → Except Failure Unit
  | .ok _ _ => .ok ()
  | .error failure _ => .error failure.erase

theorem verdict_run (step : Resolution Unit) [Oblivious step] (session : Session) :
    verdict (step session) = (step.effect session.active).erase.outcome := by
  rw [run_eq step, Account.resume, Account.erase, effect_outcome, outcome]
  cases (step.account session.active).outcome <;> rfl

theorem run_singles (resolver : Resolver) (scope : String) {statements parts : List Import}
    (full : ∀ statement ∈ statements, statement.package.access.Full)
    (written : parts.map Import.erase = (statements.flatMap Import.singles).map Import.erase)
    (session : Session) :
    (sessionAfter (resolver.imports scope statements session)).store =
        (sessionAfter (parts.forM (resolver.resolveImport scope) session)).store ∧
      verdict (resolver.imports scope statements session) =
        verdict (parts.forM (resolver.resolveImport scope) session) := by
  have routes : (resolver.routeOfAll statements).erase = (resolver.routeOfAll parts).erase := by
    rw [routeOfAll_erase parts, written, ← routeOfAll_erase, routeOfAll_flatMap_singles _ full]
  have effects : ((resolver.imports scope statements).effect session.active).erase =
      ((resolver.imports scope parts).effect session.active).erase := by
    unfold imports
    rw [Tree.importDepth, effect_importsWithin, effect_importsWithin]
    exact follow_erase routes
  rw [forM_resolveImport]
  constructor
  · rw [sessionAfter_store, sessionAfter_store]
    exact congrArg (fun account => account.events.foldl DefinitionStore.apply session.store) effects
  · rw [verdict_run, verdict_run, effects]

/-- The imports of a source, or some of them, may be written one for each leaf. -/
theorem run_singles_of_parsed {text : String} {name : Option String} {file : File}
    (parsed : File.parse text name = .ok file) (resolver : Resolver) (scope : String)
    {statements parts : List Import} (among : statements ⊆ file.imports)
    (written : parts.map Import.erase = (statements.flatMap Import.singles).map Import.erase)
    (session : Session) :
    (sessionAfter (resolver.imports scope statements session)).store =
        (sessionAfter (parts.forM (resolver.resolveImport scope) session)).store ∧
      verdict (resolver.imports scope statements session) =
        verdict (parts.forM (resolver.resolveImport scope) session) :=
  resolver.run_singles scope (fun statement member => File.parse_full parsed statement (among member))
    written session

/-- An import that takes several things leaves the store and ends as the imports of its single leaves
do one after the other, wherever these are written. -/
theorem resolveImport_singles (resolver : Resolver) (scope : String) (statement : Import)
    (full : statement.package.access.Full) (parts : List Import)
    (written : parts.map Import.erase = statement.singles.map Import.erase) (session : Session) :
    (sessionAfter (resolver.resolveImport scope statement session)).store =
        (sessionAfter (parts.forM (resolver.resolveImport scope) session)).store ∧
      verdict (resolver.resolveImport scope statement session) =
        verdict (parts.forM (resolver.resolveImport scope) session) := by
  refine resolver.run_singles scope (List.forall_mem_singleton.mpr full) ?_ session
  rw [written, List.flatMap_singleton]

def twofoldPackage : Resolver :=
  let name := Text.Utf8.encode
  let tree : Tree := Table.empty
    |>.insert [name "src"] .directory
    |>.insert [name "src", name "a"] .directory
    |>.insert [name "src", name "a", name "src"] .directory
    |>.insert [name "src", name "a", name "src", name "b.leo"]
      (.file (Text.Utf8.encode "circuit y \x7b v: u8 \x7d circuit w \x7b v: u8 \x7d"))
    |>.insert [name "src", name "a.leo"] (.file (Text.Utf8.encode "circuit x \x7b v: u8 \x7d"))
  ⟨⟨tree, [], false⟩, some "/"⟩

/-- `import a.(x, b.(y as z, *));` -/
def branchingImport : Import :=
  let named (name : String) : Identifier := ⟨name, .none⟩
  ⟨⟨named "a", .multiple [.symbol ⟨named "x", none, .none⟩,
    .subPackage (named "b") (.multiple [.symbol ⟨named "y", some (named "z"), .none⟩, .star .none]
      .none) .none] .none, .none⟩, .none⟩

/-- `import a.x; import a.b.y as z; import a.b.*;` -/
def branchImports : List Import :=
  let named (name : String) : Identifier := ⟨name, .none⟩
  [⟨⟨named "a", .symbol ⟨named "x", none, .none⟩, .none⟩, .none⟩,
    ⟨⟨named "a", .subPackage (named "b") (.symbol ⟨named "y", some (named "z"), .none⟩) .none,
      .none⟩, .none⟩,
    ⟨⟨named "a", .subPackage (named "b") (.star .none) .none, .none⟩, .none⟩]

theorem branchingImport_singles :
    branchingImport.package.access.Full ∧
    branchImports.map Import.erase = branchingImport.singles.map Import.erase ∧
    (sessionAfter (twofoldPackage.resolveImport "main" branchingImport
      (.start .empty))).store.keys = ["main_x", "main_z", "main_y", "main_w"] ∧
    (sessionAfter (branchImports.forM (twofoldPackage.resolveImport "main")
      (.start .empty))).store.keys = ["main_x", "main_z", "main_y", "main_w"] := by
  have full : branchingImport.package.access.Full :=
    ⟨List.cons_ne_nil _ _, trivial, ⟨List.cons_ne_nil _ _, trivial, trivial, trivial⟩, trivial⟩
  have stored : (sessionAfter (twofoldPackage.resolveImport "main" branchingImport
      (.start .empty))).store.keys = ["main_x", "main_z", "main_y", "main_w"] := by
    decide +kernel
  have alike := resolveImport_singles twofoldPackage "main" branchingImport full branchImports rfl
    (.start .empty)
  exact ⟨full, rfl, stored, alike.1 ▸ stored⟩

end Resolver

end LeoFront

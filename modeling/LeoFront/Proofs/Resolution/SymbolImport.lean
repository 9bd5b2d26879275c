import LeoFront.Proofs.Resolution.Account

namespace LeoFront
open Resolution

theorem DefinitionStore.get?_replay (events : List Event) (store : DefinitionStore)
    (name : String) : (events.foldl DefinitionStore.apply store).get? name =
      ((events.foldl DefinitionStore.apply .empty).get? name).or (store.get? name) := by
  rw [apply_eq_write, apply_eq_write, Table.get?_write, Table.get?_write, Table.get?_empty,
    Option.or_none]

namespace Resolver

theorem run_takeSymbol {resolver : Resolver} {imports : Imports}
    [∀ scope statements, Oblivious (imports scope statements)] {scope : String} {entry : Entry}
    {symbol : ImportSymbol} {session after : Session}
    (run : resolver.takeSymbol imports scope entry symbol session = .ok () after) :
    ∃ program definition journal,
      resolver.workspace.loadOf entry symbol.span = .ok program ∧
      program.definition? symbol.symbol.name symbol.localName = some definition ∧
      inside resolver.workspace entry.path symbol.span (imports scope program.imports)
        ⟨session.store.insert (qualify scope symbol.localName) definition, session.active, journal⟩ =
        .ok () after := by
  change EStateM.bind _ _ _ = _ at run
  rw [EStateM.bind, run_loadEntry] at run
  cases loaded : resolver.workspace.loadOf entry symbol.span with
  | error failure =>
    rw [loaded] at run
    cases run
  | ok program =>
    rw [loaded] at run
    dsimp only [Account.resume] at run
    cases declared : program.definition? symbol.symbol.name symbol.localName with
    | none =>
      rw [declared] at run
      cases run
    | some definition =>
      rw [declared] at run
      have unstored : (loadEvents resolver.workspace entry).foldl DefinitionStore.apply
          session.store = session.store := by
        unfold loadEvents
        split <;> rfl
      change inside _ _ _ _ ⟨((loadEvents resolver.workspace entry).foldl DefinitionStore.apply
        session.store).insert _ _, session.active, _⟩ = _ at run
      rw [unstored] at run
      exact ⟨program, definition, _, rfl, declared, run⟩

/-- After a symbol was imported, there stands under its name what the imports of its file bring in
under that name, taken by themselves, or else what its file declares. -/
theorem takeSymbol_store (resolver : Resolver) (depth : Nat) (scope : String) (entry : Entry)
    (symbol : ImportSymbol) (session after : Session)
    (run : resolver.takeSymbol (resolver.importsWithin depth) scope entry symbol session =
      .ok () after) :
    ∃ file name definition nested,
      resolver.workspace.parseFile entry.path = .ok file ∧
      (Program.ofFile file name).definition? symbol.symbol.name symbol.localName =
        some definition ∧
      inside resolver.workspace entry.path symbol.span
        (resolver.importsWithin depth scope file.imports) ⟨.empty, session.active, []⟩ =
          .ok () nested ∧
      after.store.get? (qualify scope symbol.localName) =
        (nested.store.get? (qualify scope symbol.localName)).or (some definition) := by
  obtain ⟨program, definition, journal, loaded, declared, run⟩ := run_takeSymbol run
  obtain ⟨file, name, parsed, rfl⟩ := Workspace.loadOf_ok loaded
  rw [Program.imports_ofFile] at run
  let step := inside resolver.workspace entry.path symbol.span
    (resolver.importsWithin depth scope file.imports)
  have ended := outcome_of_ok run
  change (step.account session.active).outcome = .ok () at ended
  -- the imports of the file do the same whatever store they start with
  have replayed (before : Session) (within : before.active = session.active) :
      step before = .ok () (before.replay (step.account session.active).events) := by
    rw [run_eq step, within, Account.resume, ended]
  have same := run.symm.trans (replayed _ rfl)
  cases same
  refine ⟨file, name, definition, _, parsed, declared, replayed _ rfl, ?_⟩
  simp only [Session.replay]
  rw [DefinitionStore.get?_replay, Table.get?_insert, if_pos rfl]

def shadowingImports : Resolver := .ofSources
  [("foo.leo", "import bar.*;\nfunction add() -> u8 \x7b return 1u8; \x7d"),
    ("bar.leo", "circuit add \x7b v: u8 \x7d")]

def shadowingEntry : Entry := ⟨"/src/", Text.Utf8.encode "foo.leo"⟩

def shadowedSymbol : ImportSymbol := ⟨⟨"add", .none⟩, none, .none⟩

def shadowingRun : EStateM.Result Failure Session Unit :=
  shadowingImports.takeSymbol shadowingImports.imports "main" shadowingEntry shadowedSymbol
    (.start .empty)

def storedKind? (run : EStateM.Result Failure Session Unit) (name : String) : Option String :=
  match run with
  | .ok _ after => (after.store.get? name).map Definition.kind
  | .error _ _ => none

def declaredKind? (workspace : Workspace) (entry : Entry) (name : String) : Option String :=
  match workspace.parseFile entry.path with
  | .ok file => ((Program.ofFile file entry.name).definition? name name).map Definition.kind
  | .error _ => none

theorem exists_of_storedKind? {run : EStateM.Result Failure Session Unit} {name kind : String}
    (stored : storedKind? run name = some kind) : ∃ after definition, run = .ok () after ∧
      after.store.get? name = some definition ∧ definition.kind = kind := by
  cases run with
  | error failure after => cases stored
  | ok value after =>
    obtain ⟨definition, stored, kind⟩ := Option.map_eq_some_iff.mp stored
    exact ⟨after, definition, rfl, stored, kind⟩

theorem exists_of_declaredKind? {workspace : Workspace} {entry : Entry} {name kind : String}
    (declared : declaredKind? workspace entry name = some kind) : ∃ file definition,
      workspace.parseFile entry.path = .ok file ∧
      (Program.ofFile file entry.name).definition? name name = some definition ∧
      definition.kind = kind := by
  unfold declaredKind? at declared
  cases parsed : workspace.parseFile entry.path with
  | error error =>
    rw [parsed] at declared
    cases declared
  | ok file =>
    rw [parsed] at declared
    obtain ⟨definition, declared, kind⟩ := Option.map_eq_some_iff.mp declared
    exact ⟨file, definition, rfl, declared, kind⟩

/-- A symbol import need not deliver what the file declares: here a circuit stands under the name of
the function. -/
theorem takeSymbol_overwritten :
    ¬ ∀ (resolver : Resolver) (scope : String) (entry : Entry) (symbol : ImportSymbol)
      (session after : Session) (file : File) (name : String) (definition : Definition),
      resolver.takeSymbol resolver.imports scope entry symbol session = .ok () after →
      resolver.workspace.parseFile entry.path = .ok file →
      (Program.ofFile file name).definition? symbol.symbol.name symbol.localName =
        some definition →
      after.store.get? (qualify scope symbol.localName) = some definition := by
  intro delivers
  have circuit : storedKind? shadowingRun (qualify "main" "add") = some "CircuitDefinition" := by
    decide +kernel
  have function : declaredKind? shadowingImports.workspace shadowingEntry "add" =
      some "Function" := by
    decide +kernel
  obtain ⟨after, stored, run, known, storedKind⟩ := exists_of_storedKind? circuit
  obtain ⟨file, definition, parsed, declared, declaredKind⟩ := exists_of_declaredKind? function
  have delivered := delivers _ _ _ _ _ _ _ _ _ run parsed declared
  cases known.symm.trans delivered
  rw [storedKind] at declaredKind
  exact absurd declaredKind (by decide)

theorem shadowingRun_store : ∃ after file name definition nested,
    shadowingRun = .ok () after ∧
    shadowingImports.workspace.parseFile shadowingEntry.path = .ok file ∧
    (Program.ofFile file name).definition? "add" "add" = some definition ∧
    inside shadowingImports.workspace shadowingEntry.path .none
      (shadowingImports.imports "main" file.imports) (.start .empty) = .ok () nested ∧
    after.store.get? (qualify "main" "add") =
      (nested.store.get? (qualify "main" "add")).or (some definition) := by
  have circuit : storedKind? shadowingRun (qualify "main" "add") = some "CircuitDefinition" := by
    decide +kernel
  obtain ⟨after, _, run, _⟩ := exists_of_storedKind? circuit
  obtain ⟨file, name, definition, nested, result⟩ := takeSymbol_store shadowingImports _ "main"
    shadowingEntry shadowedSymbol (.start .empty) after run
  exact ⟨after, file, name, definition, nested, run, result⟩

end Resolver

end LeoFront

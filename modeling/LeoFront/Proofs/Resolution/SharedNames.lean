import LeoFront.Proofs.Resolution.Installation
import LeoFront.Proofs.Resolution.SymbolImport

namespace LeoFront

theorem Program.definition?_eq (program : Program) (name localName : String) :
    program.definition? name localName =
      ((program.circuits.get? name).map (.circuit localName)).or
        ((program.functions.get? name).map (.function none)) := by
  unfold definition?
  cases program.circuits.get? name with
  | some circuit => rfl
  | none => cases program.functions.get? name <;> rfl

theorem Program.exists_definition? {program : Program} {name : String} (localName : String)
    (declares : program.Declares name) : ∃ definition, program.definition? name localName =
      some definition := by
  rw [Program.definition?_eq]
  rcases declares with circuit | function
  · obtain ⟨circuit, found⟩ := program.circuits.mem_keys_iff.mp circuit
    simp [found]
  · obtain ⟨function, found⟩ := program.functions.mem_keys_iff.mp function
    cases program.circuits.get? name <;> simp [found]

theorem Program.tables_ofFile (file : File) (first second : String) :
    (ofFile file first).circuits = (ofFile file second).circuits ∧
      (ofFile file first).functions = (ofFile file second).functions := by
  rw [ofFile_eq, ofFile_eq]
  exact ⟨rfl, rfl⟩

namespace Resolver
open Resolution
variable {resolver : Resolver} {depth : Nat} {scope : String} {entry : Entry} {file : File}
  {session after : Session}

theorem takeAll_ok_iff_takeSymbol_ok {imports : Imports}
    [∀ scope statements, Oblivious (imports scope statements)] {span : Span}
    {symbol : ImportSymbol} {active : List String}
    (parsed : resolver.workspace.parseFile entry.path = .ok file)
    (declares : file.Declares symbol.symbol.name) :
    (resolver.takeAll imports scope entry span).outcome active = .ok () ↔
      (resolver.takeSymbol imports scope entry symbol).outcome active = .ok () := by
  have same (program : Program) : (inside resolver.workspace entry.path span
        (define imports (program.rename scope))).outcome active = .ok () ↔
      (inside resolver.workspace entry.path symbol.span
        (imports scope program.imports)).outcome active = .ok () := by
    simp only [inside_ok_iff, outcome_define]
    rfl
  rw [takeAll_ok_iff, takeSymbol_ok_iff]
  constructor
  · rintro ⟨program, loaded, ended⟩
    obtain ⟨file', name, parsed', rfl⟩ := Workspace.loadOf_ok loaded
    cases parsed.symm.trans parsed'
    obtain ⟨definition, declared⟩ := Program.exists_definition? symbol.localName
      ((Program.declares_ofFile file name symbol.symbol.name).mpr declares)
    exact ⟨_, definition, Workspace.loadOf_span loaded, declared, (same _).mp ended⟩
  · rintro ⟨program, definition, loaded, declared, ended⟩
    exact ⟨program, Workspace.loadOf_span loaded, (same program).mpr ended⟩

/-- What a star takes from a file is installed over all that the imports of the file brought in. -/
theorem takeAll_install {span : Span}
    (parsed : resolver.workspace.parseFile entry.path = .ok file)
    (run : resolver.takeAll (resolver.importsWithin depth) scope entry span session =
      .ok () after) :
    ∃ name brought, after.store = ((Program.ofFile file name).rename scope).install brought := by
  obtain ⟨program, loaded, entered⟩ := takeAll_ok_iff.mp (outcome_of_ok run)
  obtain ⟨file', name, parsed', rfl⟩ := Workspace.loadOf_ok loaded
  cases parsed.symm.trans parsed'
  obtain ⟨path, resolved, outside, defined⟩ := (inside_ok_iff ..).mp entered
  have stored := sessionAfter_store
    (resolver.takeAll (resolver.importsWithin depth) scope entry span) session
  rw [run, effect_takeAll, loaded, Account.bind_pure, effect_inside, resolved] at stored
  change after.store = _ at stored
  obtain ⟨brought, installed⟩ := define_install session.store defined
  simp only [if_neg outside] at stored
  rw [List.foldl_append, List.foldl_cons] at stored
  exact ⟨name, brought, stored.trans installed⟩

theorem takeSymbol_insert {symbol : ImportSymbol}
    (parsed : resolver.workspace.parseFile entry.path = .ok file) (alone : file.imports = [])
    (run : resolver.takeSymbol (resolver.importsWithin depth) scope entry symbol session =
      .ok () after) :
    ∃ name definition,
      (Program.ofFile file name).definition? symbol.symbol.name symbol.localName =
        some definition ∧
      after.store = session.store.insert (qualify scope symbol.localName) definition := by
  obtain ⟨program, definition, journal, loaded, declared, run⟩ := run_takeSymbol run
  obtain ⟨file', name, parsed', rfl⟩ := Workspace.loadOf_ok loaded
  cases parsed.symm.trans parsed'
  rw [Program.imports_ofFile, alone] at run
  refine ⟨name, definition, declared, ?_⟩
  have stored := sessionAfter_store (inside resolver.workspace entry.path symbol.span
    (resolver.importsWithin depth scope []))
    ⟨session.store.insert (qualify scope symbol.localName) definition, session.active, journal⟩
  rw [run] at stored
  refine Eq.trans (b := _) stored (DefinitionStore.apply_quiet ?_ _)
  rintro event does key value rfl
  obtain ⟨path, -, -, entered | left | nested⟩ := (does_inside ..).mp does
  · cases entered
  · cases left
  · cases depth <;> cases nested

/-- From a file without imports a star succeeds if and only if a symbol that the file declares does, and
they take the same under its name if and only if the file has not both a circuit and a function of
that name. -/
theorem takeAll_eq_takeSymbol_iff (resolver : Resolver) (depth : Nat) (scope : String)
    (entry : Entry) (span : Span) (symbol : ImportSymbol) (file : File) (session : Session)
    (parsed : resolver.workspace.parseFile entry.path = .ok file) (alone : file.imports = [])
    (unaliased : symbol.renamed = none) (declares : file.Declares symbol.symbol.name) :
    ((∃ after, resolver.takeAll (resolver.importsWithin depth) scope entry span session =
        .ok () after) ↔
      ∃ after, resolver.takeSymbol (resolver.importsWithin depth) scope entry symbol session =
        .ok () after) ∧
    ∀ afterStar afterSymbol,
      resolver.takeAll (resolver.importsWithin depth) scope entry span session =
        .ok () afterStar →
      resolver.takeSymbol (resolver.importsWithin depth) scope entry symbol session =
        .ok () afterSymbol →
      (afterStar.store.get? (qualify scope symbol.symbol.name) =
          afterSymbol.store.get? (qualify scope symbol.symbol.name) ↔
        ¬ (symbol.symbol.name ∈ (Program.ofFile file scope).circuits.keys ∧
          symbol.symbol.name ∈ (Program.ofFile file scope).functions.keys)) := by
  refine ⟨?_, fun afterStar afterSymbol star single => ?_⟩
  · rw [exists_run_iff, exists_run_iff]
    exact takeAll_ok_iff_takeSymbol_ok parsed declares
  obtain ⟨name, brought, installed⟩ := takeAll_install parsed star
  obtain ⟨name', definition, declared, inserted⟩ := takeSymbol_insert parsed alone single
  have localName : symbol.localName = symbol.symbol.name := by
    rw [ImportSymbol.localName, unaliased]
  have starred := ((Program.ofFile file name).rename scope).get?_install symbol.symbol.name brought
  rw [localName] at declared inserted
  rw [Program.definition?_eq, (Program.tables_ofFile file name' scope).1,
    (Program.tables_ofFile file name' scope).2] at declared
  simp only [Program.rename, (Program.tables_ofFile file name scope).1,
    (Program.tables_ofFile file name scope).2] at installed starred
  rw [installed, starred, inserted, Table.get?_insert, if_pos rfl, ← declared, Table.mem_keys_iff,
    Table.mem_keys_iff]
  cases circuit : (Program.ofFile file scope).circuits.get? symbol.symbol.name with
  | none =>
    cases function : (Program.ofFile file scope).functions.get? symbol.symbol.name with
    | none => simp [circuit, function] at declared
    | some function => simp
  | some circuit =>
    cases (Program.ofFile file scope).functions.get? symbol.symbol.name <;> simp

def twofoldImports : Resolver := .ofSources
  [("foo.leo", "circuit thing \x7b v: u8 \x7d\nfunction thing() -> u8 \x7b return 1u8; \x7d")]

def twofoldEntry : Entry := ⟨"/src/", Text.Utf8.encode "foo.leo"⟩

def twofoldSymbol : ImportSymbol := ⟨⟨"thing", .none⟩, none, .none⟩

def twofoldStar : EStateM.Result Failure Session Unit :=
  twofoldImports.takeAll twofoldImports.imports "main" twofoldEntry .none (.start .empty)

def twofoldSingle : EStateM.Result Failure Session Unit :=
  twofoldImports.takeSymbol twofoldImports.imports "main" twofoldEntry twofoldSymbol
    (.start .empty)

theorem twofold_runs : ∃ file afterStar afterSymbol function circuit,
    twofoldImports.workspace.parseFile twofoldEntry.path = .ok file ∧ file.imports = [] ∧
    file.Declares "thing" ∧ twofoldStar = .ok () afterStar ∧ twofoldSingle = .ok () afterSymbol ∧
    afterStar.store.get? (qualify "main" "thing") = some function ∧
    afterSymbol.store.get? (qualify "main" "thing") = some circuit ∧ function ≠ circuit := by
  have function : storedKind? twofoldStar (qualify "main" "thing") = some "Function" := by
    decide +kernel
  have circuit : storedKind? twofoldSingle (qualify "main" "thing") =
      some "CircuitDefinition" := by
    decide +kernel
  have content : (twofoldImports.workspace.parseFile twofoldEntry.path).toOption.map
      (fun file => (file.imports.isEmpty, file.declarations.map Declaration.name)) =
        some (true, ["thing", "thing"]) := by
    decide +kernel
  obtain ⟨afterStar, function, starRun, stored, functionKind⟩ := exists_of_storedKind? function
  obtain ⟨afterSymbol, circuit, run, known, circuitKind⟩ := exists_of_storedKind? circuit
  obtain ⟨file, parsed, seen⟩ := exists_of_view content
  obtain ⟨alone, names⟩ := Prod.mk.inj seen
  have declares : file.Declares "thing" := List.mem_map.mp (names ▸ List.mem_cons_self)
  refine ⟨file, afterStar, afterSymbol, function, circuit, parsed, List.isEmpty_iff.mp alone,
    declares, starRun, run, stored, known, ?_⟩
  rintro rfl
  exact absurd (functionKind.symm.trans circuitKind) (by decide)

/-- A star need not take what a symbol takes: here it takes the function and not the circuit. -/
theorem takeAll_hides_circuit :
    ¬ ∀ (resolver : Resolver) (scope : String) (entry : Entry) (span : Span)
      (symbol : ImportSymbol) (file : File) (session afterStar afterSymbol : Session),
      resolver.workspace.parseFile entry.path = .ok file → file.imports = [] →
      symbol.renamed = none →
      resolver.takeAll resolver.imports scope entry span session = .ok () afterStar →
      resolver.takeSymbol resolver.imports scope entry symbol session = .ok () afterSymbol →
      afterStar.store.get? (qualify scope symbol.symbol.name) =
        afterSymbol.store.get? (qualify scope symbol.symbol.name) := by
  intro agree
  obtain ⟨file, afterStar, afterSymbol, function, circuit, parsed, alone, -, star, single, stored,
    known, different⟩ := twofold_runs
  have same := agree _ _ _ _ twofoldSymbol _ _ _ _ parsed alone rfl star single
  exact different (Option.some.inj ((stored.symm.trans same).trans known))

theorem twofold_both : ∃ file,
    twofoldImports.workspace.parseFile twofoldEntry.path = .ok file ∧ file.imports = [] ∧
    file.Declares "thing" ∧ "thing" ∈ (Program.ofFile file "main").circuits.keys ∧
    "thing" ∈ (Program.ofFile file "main").functions.keys := by
  obtain ⟨file, afterStar, afterSymbol, function, circuit, parsed, alone, declares, star, single,
    stored, known, different⟩ := twofold_runs
  refine ⟨file, parsed, alone, declares, Decidable.not_not.mp fun missing => different ?_⟩
  have agree := (takeAll_eq_takeSymbol_iff twofoldImports _ "main" twofoldEntry .none twofoldSymbol
    file _ parsed alone rfl declares).2 afterStar afterSymbol star single
  exact Option.some.inj ((stored.symm.trans (agree.mpr missing)).trans known)

end Resolver

end LeoFront

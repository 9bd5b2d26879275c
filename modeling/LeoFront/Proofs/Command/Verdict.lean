import LeoFront.Command.Run
import LeoFront.Proofs.Check.Program
import LeoFront.Proofs.Resolution.Effect
import LeoFront.Proofs.Resolution.Selection
import Mathlib.Data.List.Forall2

namespace LeoFront

namespace Resolution
variable {α : Type}

def Yields (step : Resolution α) (value : α) (store : DefinitionStore) : Prop :=
  ∃ session, step (.start .empty) = .ok value session ∧ session.store = store

theorem yields_iff {step : Resolution α} [Oblivious step] {value : α} {store : DefinitionStore} :
    step.Yields value store ↔ (step.effect []).outcome = .ok value ∧
      (step.effect []).events.foldl DefinitionStore.apply .empty = store := by
  have stored := sessionAfter_store step (.start .empty)
  constructor
  · rintro ⟨session, run, rfl⟩
    rw [run] at stored
    exact ⟨outcome_of_ok run, stored.symm⟩
  · rintro ⟨ok, rfl⟩
    have runs : ∃ session, step (.start .empty) = .ok value session := exists_run_iff.mpr ok
    obtain ⟨session, run⟩ := runs
    rw [run] at stored
    exact ⟨session, run, stored⟩

end Resolution

namespace Command
open Resolution Report
variable {workspace : Workspace} {config : Config} {file : String} {loaded : Loaded}
  {store : DefinitionStore} {action : Action}

/-- A file is read and parsed, and its imports resolve; the store is what they brought in. -/
structure Loads (workspace : Workspace) (root : Option String) (file : String) (loaded : Loaded)
    (store : DefinitionStore) : Prop where
  found : workspace.resolve file = .ok loaded.filePath
  parsed : ∃ source tree, workspace.read loaded.filePath = .ok source ∧
    File.parse source (some loaded.filePath) = .ok tree ∧
    loaded.program = .ofFile tree (Path.baseName loaded.filePath sourceExtension)
  resolved : ∃ session, Resolver.resolveProgram ⟨workspace, root⟩ loaded.program
    (some loaded.filePath) (.start .empty) = .ok () session ∧ session.store = store

instance oblivious_load (workspace : Workspace) (config : Config) (file : String) :
    Oblivious (load workspace config file) := by
  unfold load
  split <;> infer_instance

theorem effect_parseFile (workspace : Workspace) (path : String) (active : List String) :
    (Resolution.parseFile workspace path).effect active =
      ⟨(workspace.parseFile path).mapError .badSource, []⟩ := by
  rw [effect, account_eq fun _ _ => run_parseFile workspace path _]
  rfl

theorem bind_result {α : Type} (account : Account Unit) (value : α) :
    (account.bind fun _ => ⟨.ok value, []⟩) =
      ⟨account.outcome.map fun _ => value, account.events⟩ := by
  obtain ⟨outcome | _, events⟩ := account <;> simp [Account.bind, Except.map]

theorem effect_load {path : String} {tree : File} (found : workspace.resolve file = .ok path)
    (parsed : workspace.parseFile path = .ok tree) :
    (load workspace config file).effect [] =
      ((Resolver.resolveProgram ⟨workspace, config.packageRoot⟩
        (.ofFile tree (Path.baseName path sourceExtension)) (some path)).effect []).bind fun _ =>
          ⟨.ok ⟨.ofFile tree (Path.baseName path sourceExtension), path⟩, []⟩ := by
  have read : (Resolution.parseFile workspace path).effect [] = ⟨.ok tree, []⟩ := by
    rw [effect_parseFile, parsed]
    rfl
  rw [load, found]
  exact (effect_bind_ok _ read).trans (effect_bind ..)

theorem parseFile_iff {path : String} {tree : File} : workspace.parseFile path = .ok tree ↔
    ∃ source, workspace.read path = .ok source ∧ File.parse source (some path) = .ok tree := by
  unfold Workspace.parseFile
  cases workspace.read path with
  | error cause => simp
  | ok source =>
    cases parsed : File.parse source (some path) <;> simp [parsed]

theorem yields_load {path : String} {tree : File} (found : workspace.resolve file = .ok path)
    (parsed : workspace.parseFile path = .ok tree) :
    (load workspace config file).Yields loaded store ↔
      loaded = ⟨.ofFile tree (Path.baseName path sourceExtension), path⟩ ∧
      (Resolver.resolveProgram ⟨workspace, config.packageRoot⟩
        (.ofFile tree (Path.baseName path sourceExtension)) (some path)).Yields () store := by
  rw [yields_iff, yields_iff, effect_load found parsed, bind_result]
  cases ((Resolver.resolveProgram ⟨workspace, config.packageRoot⟩
    (.ofFile tree (Path.baseName path sourceExtension)) (some path)).effect []).outcome with
  | error failure => simp [Except.map]
  | ok _ => simp [Except.map, eq_comm]

theorem not_yields_load {path : String} {error : SourceError}
    (found : workspace.resolve file = .ok path) (failed : workspace.parseFile path = .error error) :
    ¬ (load workspace config file).Yields loaded store := by
  have unread : (Resolution.parseFile workspace path).effect [] =
      ⟨.error (.badSource error), []⟩ := by
    rw [effect_parseFile, failed]
    rfl
  rw [yields_iff, load, found]
  rintro ⟨ok, -⟩
  rw [effect_bind_error _ unread] at ok
  cases ok

theorem load_iff : (load workspace config file).Yields loaded store ↔
    Loads workspace config.packageRoot file loaded store := by
  constructor
  · intro yields
    cases found : workspace.resolve file with
    | error error =>
      obtain ⟨ok, -⟩ := yields_iff.mp yields
      rw [load, found] at ok
      cases ok
    | ok path =>
      cases parsed : workspace.parseFile path with
      | error error => exact absurd yields (not_yields_load found parsed)
      | ok tree =>
        obtain ⟨rfl, resolved⟩ := (yields_load found parsed).mp yields
        obtain ⟨source, read, accepted⟩ := parseFile_iff.mp parsed
        exact ⟨found, ⟨source, tree, read, accepted, rfl⟩, resolved⟩
  · rintro ⟨found, ⟨source, tree, read, accepted, named⟩, resolved⟩
    have parsed := parseFile_iff.mpr ⟨source, read, accepted⟩
    rw [yields_load found parsed, ← named]
    exact ⟨rfl, resolved⟩

theorem Loads.unique {loaded' : Loaded} {store' : DefinitionStore}
    (loads : Loads workspace config.packageRoot file loaded store)
    (loads' : Loads workspace config.packageRoot file loaded' store') :
    loaded' = loaded ∧ store' = store := by
  obtain ⟨session, run, rfl⟩ := load_iff.mpr loads
  obtain ⟨session', run', rfl⟩ := load_iff.mpr loads'
  cases run.symm.trans run'
  exact ⟨rfl, rfl⟩

/-- A command has nothing to complain about: its file loads, and a check of it finds nothing. -/
def Succeeds (workspace : Workspace) (root : Option String) (action : Action) (file : String) :
    Prop :=
  ∃ loaded store, Loads workspace root file loaded store ∧
    (action = .check →
      loaded.program.typecheck (circuitNames store) (some loaded.filePath) = [])

theorem exitCode_outcome (fatal : Fatal) (format : OutputFormat) (log : List Line) :
    (fatal.outcome format log).exitCode = 1 := by
  cases format <;> rfl

theorem exitCode_reportCheck (loaded : Loaded) (diagnostics : List Diagnostic)
    (format : OutputFormat) (log : List Line) :
    (reportCheck loaded diagnostics format log).exitCode = if diagnostics = [] then 0 else 1 := by
  cases format with
  | json => rfl
  | text =>
    unfold reportCheck
    dsimp only
    split <;> rfl

theorem exitCode_reportImports (store : DefinitionStore) (format : OutputFormat) (log : List Line) :
    (reportImports store format log).exitCode = 0 := by
  cases format <;> rfl

theorem perform_of_loads (loads : Loads workspace config.packageRoot file loaded store)
    (action : Action) :
    ∃ log : List LogLine, perform workspace config action file =
      match action with
      | .check => reportCheck loaded
          (loaded.program.typecheck (circuitNames store) (some loaded.filePath))
          config.format (log.map .log)
      | .imports => reportImports store config.format (log.map .log) := by
  obtain ⟨session, run, rfl⟩ := load_iff.mpr loads
  refine ⟨session.log.filter (·.level.shownAt config.logLevel), ?_⟩
  unfold perform
  rw [EStateM.run, run]
  rfl

theorem perform_of_not_loads
    (fails : ∀ loaded store, ¬ Loads workspace config.packageRoot file loaded store) :
    (perform workspace config action file).exitCode = 1 := by
  unfold perform
  rw [EStateM.run]
  split
  · exact exitCode_outcome _ _ _
  · rename_i loaded session run
    exact absurd (load_iff.mp ⟨session, run, rfl⟩) (fails loaded session.store)

open scoped Classical in
theorem exitCode_perform (workspace : Workspace) (config : Config) (action : Action)
    (file : String) : (perform workspace config action file).exitCode =
      if Succeeds workspace config.packageRoot action file then 0 else 1 := by
  by_cases loads : ∃ loaded store, Loads workspace config.packageRoot file loaded store
  · obtain ⟨loaded, store, loads⟩ := loads
    obtain ⟨log, same⟩ := perform_of_loads loads action
    rw [same]
    cases action with
    | imports =>
      rw [if_pos ⟨loaded, store, loads, nofun⟩]
      exact exitCode_reportImports store config.format _
    | check =>
      -- The file loads in one way only, so a check that succeeds has checked what is loaded here.
      have clean : Succeeds workspace config.packageRoot .check file ↔
          loaded.program.typecheck (circuitNames store) (some loaded.filePath) = [] := by
        constructor
        · rintro ⟨loaded', store', loads', clean⟩
          obtain ⟨rfl, rfl⟩ := loads.unique loads'
          exact clean rfl
        · exact fun clean => ⟨loaded, store, loads, fun _ => clean⟩
      simp only [clean, exitCode_reportCheck]
  · have fails : ¬ Succeeds workspace config.packageRoot action file := by
      rintro ⟨loaded, store, known, -⟩
      exact loads ⟨loaded, store, known⟩
    rw [if_neg fails]
    exact perform_of_not_loads fun loaded store known => loads ⟨loaded, store, known⟩

def Shows (path : String) (error : StructuredError) (line : Line) : Prop :=
  ∃ location, error.location = some location ∧ location.file = some path ∧
    line = .ofString (path ++ ": " ++
      ("line " ++ toString location.line ++ ", column " ++ toString location.column) ++ ": " ++
      error.message.toString)

theorem shows_diagnostic {path : String} {diagnostic : Diagnostic}
    (known : diagnostic.filePath = some path) :
    Shows path (.ofDiagnostic diagnostic) (.ofString diagnostic.text) := by
  refine ⟨_, rfl, known, ?_⟩
  rw [Diagnostic.text, known, StructuredError.ofDiagnostic, Text.Message.toString_ofString]
  rfl

theorem shows_diagnostics {path : String} {diagnostics : List Diagnostic}
    (known : ∀ diagnostic ∈ diagnostics, diagnostic.filePath = some path) :
    List.Forall₂ (Shows path) (diagnostics.map .ofDiagnostic)
      (diagnostics.map fun diagnostic => .ofString diagnostic.text) := by
  rw [List.forall₂_map_left_iff, List.forall₂_map_right_iff, List.forall₂_same]
  exact fun diagnostic member => shows_diagnostic (known diagnostic member)

/-- The arguments behind the name of a command are valid, as is the environment, and ask for a file
with some settings. -/
def Asks (environment : Environment) (workspace : Workspace) (arguments : List String)
    (config : Config) (file : String) : Prop :=
  ∃ base flags, Config.ofEnvironment environment = .ok base ∧
    Flags.parse workspace arguments = .ok flags ∧ flags.positional.head? = some file ∧
    config = flags.apply base

theorem request_action (environment : Environment) (workspace : Workspace) (action : Action)
    (arguments : List String) :
    request environment workspace (action.name :: arguments) =
      match Config.ofEnvironment environment, Flags.parse workspace arguments with
      | .error error, _ => .refused (.config error)
      | .ok _, .error error => .refused error.fatal
      | .ok base, .ok flags =>
        match flags.positional with
        | [] => .missingFile action
        | file :: _ => .perform (flags.apply base) action file := by
  have named : action.name ≠ "" := by cases action <;> decide
  have known : Action.ofName? action.name = some action := by cases action <;> rfl
  simp only [request, named, if_false, known]
  cases Config.ofEnvironment environment with
  | error error => rfl
  | ok base =>
    cases Flags.parse workspace arguments with
    | error error => rfl
    | ok flags =>
      dsimp only
      cases flags.positional <;> rfl

theorem run_of_asks {environment : Environment} {arguments : List String}
    (asks : Asks environment workspace arguments config file) (action : Action) :
    run environment workspace (action.name :: arguments) =
      perform workspace config action file := by
  obtain ⟨base, flags, valid, parsed, given, rfl⟩ := asks
  obtain ⟨others, given⟩ := List.head?_eq_some_iff.mp given
  simp only [run, request_action, valid, parsed, given]

/-- The exit code of a valid command line says whether its file loads, and for a check whether nothing
is found. Only the file and the package root tell it: the format and the log level do not. What a check
finds is a document on one output, or lines behind the log on the other, with the same errors in the
same order. -/
theorem run_verdict {environment environment' : Environment} {arguments arguments' : List String}
    {config' : Config} (asks : Asks environment workspace arguments config file)
    (asks' : Asks environment' workspace arguments' config' file)
    (sameRoot : config'.packageRoot = config.packageRoot) (action : Action) :
    ((run environment workspace (action.name :: arguments)).exitCode = 0 ↔
      Succeeds workspace config.packageRoot action file) ∧
    (run environment' workspace (action.name :: arguments')).exitCode =
      (run environment workspace (action.name :: arguments)).exitCode ∧
    ∀ loaded store diagnostics, Loads workspace config.packageRoot file loaded store →
      loaded.program.typecheck (circuitNames store) (some loaded.filePath) = diagnostics →
      diagnostics ≠ [] → config.format = .json → config'.format = .text →
      ∃ (errors : List StructuredError) (lines : List Line) (log log' : List LogLine),
        run environment workspace ("check" :: arguments) =
          ⟨1, [.document (.failure errors)], log.map .log⟩ ∧
        run environment' workspace ("check" :: arguments') = ⟨1, [], log'.map .log ++ lines⟩ ∧
        errors.length = diagnostics.length ∧
        List.Forall₂ (Shows loaded.filePath) errors lines := by
  refine ⟨?_, ?_, ?_⟩
  · rw [run_of_asks asks, exitCode_perform]
    split <;> simp_all
  · rw [run_of_asks asks, run_of_asks asks', exitCode_perform, exitCode_perform, sameRoot]
  · rintro loaded store diagnostics loads found some json text
    have loads' : Loads workspace config'.packageRoot file loaded store := sameRoot ▸ loads
    obtain ⟨log, performed⟩ := perform_of_loads loads .check
    obtain ⟨log', performed'⟩ := perform_of_loads loads' .check
    refine ⟨diagnostics.map .ofDiagnostic, diagnostics.map fun diagnostic =>
      .ofString diagnostic.text, log, log', ?_, ?_, List.length_map .., shows_diagnostics ?_⟩
    · refine (run_of_asks asks .check).trans (performed.trans ?_)
      simp [found, json, reportCheck, some]
    · refine (run_of_asks asks' .check).trans (performed'.trans ?_)
      simp [found, text, reportCheck, some]
    · intro diagnostic member
      exact Program.filePath_typecheck (found ▸ member)

def faultyText : String :=
  "import dep.*;\nfunction f(a: u8) -> u8 \x7b let a: t = 1u8; \x7d"

def faultyPackage : Workspace :=
  .ofNodes [(.ofNames ["main.leo"], .file (Text.Utf8.encode faultyText)),
    (.ofNames ["src"], .directory), (.ofNames ["src", "dep.leo"], .file [])]

def foundIn (workspace : Workspace) (config : Config) (file : String) : Option Nat :=
  match load workspace config file (.start .empty) with
  | .ok loaded session => some
      (loaded.program.typecheck (circuitNames session.store) (some loaded.filePath)).length
  | .error _ _ => none

theorem faultyPackage_verdict : ¬ Succeeds faultyPackage none .check "main.leo" ∧
    ∃ (errors : List StructuredError) (lines : List Line) (log log' : List LogLine),
      run ⟨none, none⟩ faultyPackage ["check", "--format=json", "main.leo"] =
        ⟨1, [.document (.failure errors)], log.map .log⟩ ∧
      run ⟨some "debug", none⟩ faultyPackage ["check", "main.leo"] =
        ⟨1, [], log'.map .log ++ lines⟩ ∧
      errors.length = 3 ∧ List.Forall₂ (Shows "/main.leo") errors lines := by
  have json : Asks ⟨none, none⟩ faultyPackage ["--format=json", "main.leo"]
      ⟨.info, none, .json⟩ "main.leo" :=
    ⟨⟨.info, none, .text⟩, ⟨["main.leo"], some .json, none⟩, rfl, rfl, rfl, rfl⟩
  have text : Asks ⟨some "debug", none⟩ faultyPackage ["main.leo"]
      ⟨.debug, none, .text⟩ "main.leo" :=
    ⟨⟨.debug, none, .text⟩, ⟨["main.leo"], none, none⟩, rfl, rfl, rfl, rfl⟩
  have found : foundIn faultyPackage ⟨.info, none, .json⟩ "main.leo" = some 3 := by
    decide +kernel
  obtain ⟨verdict, -, shown⟩ := run_verdict json text rfl .check
  unfold foundIn at found
  split at found
  · rename_i loaded session run
    have loads := load_iff.mp ⟨session, run, rfl⟩
    have place : loaded.filePath = "/main.leo" := by
      have resolved : faultyPackage.resolve "main.leo" = .ok "/main.leo" := by decide +kernel
      exact Except.ok.inj (loads.found.symm.trans resolved)
    have three := Option.some.inj found
    have faulty : loaded.program.typecheck (circuitNames session.store) (some loaded.filePath) ≠ [] := by
      intro none
      rw [none] at three
      cases three
    obtain ⟨errors, lines, log, log', asJson, asText, length, shows⟩ :=
      shown loaded session.store _ loads rfl faulty rfl rfl
    rw [place] at shows
    refine ⟨fun succeeds => ?_, errors, lines, log, log', asJson, asText, length.trans three, shows⟩
    have code := verdict.mpr succeeds
    rw [Action.name, asJson] at code
    cases code
  · cases found

end Command

end LeoFront

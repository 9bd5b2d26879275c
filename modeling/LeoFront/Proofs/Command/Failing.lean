import LeoFront.Proofs.Command.Flags
import LeoFront.Proofs.Command.Verdict

namespace LeoFront.Command
open Report
variable {environment : Environment} {workspace : Workspace} {arguments : List String}
  {config : Config} {file : String} {fatal : Fatal} {format : OutputFormat}

/-- The flags among some arguments are valid, and the last of them that is about the format selects this
one. -/
def Selects (format : OutputFormat) (arguments : List String) : Prop :=
  ∃ (phrases : List Phrase) (last : Option Flag),
    arguments = Phrase.arguments phrases ++ Flags.trailing last ∧
      (Phrase.formats phrases).getLast? = some format

theorem Selects.format_parse {flags : Flags} (selects : Selects format arguments)
    (parsed : Flags.parse workspace arguments = .ok flags) : flags.format = some format := by
  obtain ⟨phrases, last, rfl, chosen⟩ := selects
  rw [Flags.parse_trailing] at parsed
  cases found : (Phrase.roots phrases).mapM workspace.resolve with
  | error error =>
    rw [found] at parsed
    cases parsed
  | ok directories =>
    rw [found] at parsed
    cases parsed
    exact chosen

theorem Selects.parse_ok (selects : Selects format arguments)
    (there : workspace.cwdRemoved = false) :
    ∃ flags, Flags.parse workspace arguments = .ok flags := by
  obtain ⟨phrases, last, rfl, -⟩ := selects
  obtain ⟨paths, found, -⟩ := Flags.mapM_resolve there (Phrase.roots phrases)
  rw [Flags.parse_trailing, found]
  exact ⟨_, rfl⟩

theorem Selects.format_of_asks (selects : Selects format arguments)
    (asks : Asks environment workspace arguments config file) : config.format = format := by
  obtain ⟨base, flags, -, parsed, -, rfl⟩ := asks
  rw [Flags.apply, selects.format_parse parsed]
  rfl

/-- The settings are refused: those of the environment, or otherwise the flags. -/
inductive Refuses (environment : Environment) (workspace : Workspace) (arguments : List String) :
    Fatal → Prop
  | environment {error : ConfigError} (refused : Config.ofEnvironment environment = .error error) :
    Refuses environment workspace arguments (.config error)
  | flags {base : Config} {error : FlagError} (valid : Config.ofEnvironment environment = .ok base)
    (refused : Flags.parse workspace arguments = .error error) :
    Refuses environment workspace arguments error.fatal

theorem run_of_refuses (refuses : Refuses environment workspace arguments fatal) (action : Action) :
    run environment workspace (action.name :: arguments) = ⟨1, [], [.text fatal.message]⟩ := by
  rw [run, request_action]
  cases refuses with
  | environment refused =>
    rw [refused]
    rfl
  | flags valid refused =>
    rw [valid, refused]
    rfl

theorem ofEnvironment_error {error : ConfigError}
    (refused : Config.ofEnvironment environment = .error error) :
    ∃ level, environment.logLevel = some level ∧ LogLevel.ofText? level = none ∧
      error = .logLevel level := by
  unfold Config.ofEnvironment at refused
  cases given : environment.logLevel.filter (· ≠ "") with
  | none =>
    simp only [given] at refused
    cases refused
  | some level =>
    simp only [given, parseLogLevel] at refused
    have written := (Option.filter_eq_some_iff.mp given).1
    cases known : LogLevel.ofText? level with
    | some _ =>
      simp only [known] at refused
      cases refused
    | none =>
      simp only [known] at refused
      cases refused
      exact ⟨level, written, known, rfl⟩

/-- A file is asked for, but it is not found, read or parsed, or its imports do not resolve. -/
def Fails (environment : Environment) (workspace : Workspace) (arguments : List String)
    (fatal : Fatal) : Prop :=
  ∃ config file failure session, Asks environment workspace arguments config file ∧
    load workspace config file (.start .empty) = .error failure session ∧
    fatal = .resolution failure

theorem run_of_fails (selects : Selects .json arguments)
    (fails : Fails environment workspace arguments fatal) (action : Action) :
    ∃ log : List LogLine, run environment workspace (action.name :: arguments) =
      ⟨1, [.document (.failure [fatal.structured])], log.map .log⟩ := by
  obtain ⟨config, file, failure, session, asks, failed, rfl⟩ := fails
  refine ⟨session.log.filter (·.level.shownAt config.logLevel), ?_⟩
  rw [run_of_asks asks, perform, EStateM.run, failed]
  simp only [selects.format_of_asks asks]
  rfl

def missingFile (action : Action) : Outcome := ⟨1, [], [.ofString ("Usage: " ++ action.synopsis)]⟩

theorem run_stages (environment : Environment) (workspace : Workspace) (arguments : List String)
    (action : Action) :
    (∃ fatal, Refuses environment workspace arguments fatal) ∨
    (∃ fatal, Fails environment workspace arguments fatal) ∨
    run environment workspace (action.name :: arguments) = missingFile action ∨
    ∃ config file loaded store, Asks environment workspace arguments config file ∧
      Loads workspace config.packageRoot file loaded store := by
  cases valid : Config.ofEnvironment environment with
  | error error => exact .inl ⟨_, .environment valid⟩
  | ok base =>
    cases parsed : Flags.parse workspace arguments with
    | error error => exact .inl ⟨_, .flags valid parsed⟩
    | ok flags =>
      cases given : flags.positional with
      | nil =>
        refine .inr (.inr (.inl ?_))
        simp only [run, request_action, valid, parsed, given]
        rfl
      | cons file others =>
        have first : flags.positional.head? = some file := by rw [given, List.head?_cons]
        have asks : Asks environment workspace arguments (flags.apply base) file :=
          ⟨base, flags, valid, parsed, first, rfl⟩
        cases ended : load workspace (flags.apply base) file (.start .empty) with
        | error failure session =>
          exact .inr (.inl ⟨_, _, file, failure, session, asks, ended, rfl⟩)
        | ok loaded session =>
          have loads := load_iff.mp ⟨session, ended, rfl⟩
          exact .inr (.inr (.inr ⟨_, file, loaded, session.store, asks, loads⟩))

/-- Where the flags select documents, a run whose file fails to load writes one document, with one error,
and nothing but log lines beside it. A run whose settings are refused writes one line of text instead,
since it ends before its flags count. The settings are refused for the name of a log level in the
environment, or for a root that needs a working directory that is gone. No other run is ended by an
error: either it is given no file, or its file loads. -/
theorem run_failing (selects : Selects .json arguments) (action : Action) :
    (∀ fatal, Fails environment workspace arguments fatal → ∃ log : List LogLine,
      run environment workspace (action.name :: arguments) =
        ⟨1, [.document (.failure [fatal.structured])], log.map .log⟩) ∧
    (∀ fatal, Refuses environment workspace arguments fatal →
      run environment workspace (action.name :: arguments) = ⟨1, [], [.text fatal.message]⟩ ∧
        ((∃ level, environment.logLevel = some level ∧ LogLevel.ofText? level = none ∧
          fatal = .config (.logLevel level)) ∨ workspace.cwdRemoved = true)) ∧
    ((∀ fatal, ¬ Fails environment workspace arguments fatal) →
      (∀ fatal, ¬ Refuses environment workspace arguments fatal) →
        run environment workspace (action.name :: arguments) = missingFile action ∨
        ∃ config file loaded store, Asks environment workspace arguments config file ∧
          Loads workspace config.packageRoot file loaded store) := by
  refine ⟨fun fatal fails => run_of_fails selects fails action,
    fun fatal refuses => ⟨run_of_refuses refuses action, ?_⟩, fun loads valid => ?_⟩
  · cases refuses with
    | environment refused =>
      obtain ⟨level, given, unknown, rfl⟩ := ofEnvironment_error refused
      exact .inl ⟨level, given, unknown, rfl⟩
    | flags _ refused =>
      refine .inr (Bool.of_not_eq_false fun there => ?_)
      obtain ⟨flags, parsed⟩ := selects.parse_ok there
      rw [parsed] at refused
      cases refused
  · rcases run_stages environment workspace arguments action with refuses | fails | ended
    · exact absurd refuses.choose_spec (valid _)
    · exact absurd fails.choose_spec (loads _)
    · exact ended

def lackingPackage : Workspace :=
  .ofNodes [(.ofNames ["main.leo"], .file (Text.Utf8.encode "import dep.*;")),
    (.ofNames ["src"], .directory)]

def mixedArguments : List String := ["--format=text", "main.leo", "--format", "json"]

theorem selects_mixed : Selects .json mixedArguments :=
  ⟨[.flag (.format .text) .joined, .positional "main.leo" (by decide),
    .flag (.format .json) .apart], none, rfl, rfl⟩

theorem lackingPackage_failing :
    (∃ fatal, Fails ⟨some "debug", none⟩ lackingPackage mixedArguments fatal ∧
      ∃ log : List LogLine, run ⟨some "debug", none⟩ lackingPackage ("check" :: mixedArguments) =
        ⟨1, [.document (.failure [fatal.structured])], log.map .log⟩) ∧
    ∃ fatal, Refuses ⟨some "loud", none⟩ lackingPackage mixedArguments fatal ∧
      run ⟨some "loud", none⟩ lackingPackage ("check" :: mixedArguments) =
        ⟨1, [], [.text fatal.message]⟩ := by
  refine ⟨?_, ?_⟩
  · have asks : Asks ⟨some "debug", none⟩ lackingPackage mixedArguments ⟨.debug, none, .json⟩
        "main.leo" :=
      ⟨⟨.debug, none, .text⟩, ⟨["main.leo"], some .json, none⟩, rfl, rfl, rfl, rfl⟩
    have lacking : foundIn lackingPackage ⟨.debug, none, .json⟩ "main.leo" = none := by
      decide +kernel
    unfold foundIn at lacking
    split at lacking
    · cases lacking
    · rename_i failure session failed
      have fails : Fails ⟨some "debug", none⟩ lackingPackage mixedArguments (.resolution failure) :=
        ⟨_, _, failure, session, asks, failed, rfl⟩
      exact ⟨_, fails, (run_failing selects_mixed .check).1 _ fails⟩
  · have refuses : Refuses ⟨some "loud", none⟩ lackingPackage mixedArguments
        (.config (.logLevel "loud")) :=
      .environment rfl
    exact ⟨_, refuses, ((run_failing selects_mixed .check).2.1 _ refuses).1⟩

/-- A refused environment is shown as text, although the flags select documents. -/
theorem refusedEnvironment_text :
    Selects .json ["--format=json", "main.leo"] ∧
    Refuses ⟨some "loud", none⟩ lackingPackage ["--format=json", "main.leo"]
      (.config (.logLevel "loud")) ∧
    ∀ error log, run ⟨some "loud", none⟩ lackingPackage ["check", "--format=json", "main.leo"] ≠
      ⟨1, [.document (.failure [error])], log⟩ := by
  refine ⟨⟨[.flag (.format .json) .joined, .positional "main.leo" (by decide)], none, rfl, rfl⟩,
    .environment rfl, fun error log same => ?_⟩
  cases same

end LeoFront.Command

import LeoFront.Check.Program
import LeoFront.Command.Config
import LeoFront.Report.Structured
import LeoFront.Resolution.Resolver

namespace LeoFront.Command
open Text (Message)
open Report (Output StructuredError)

inductive Line where
  | text (message : Message)
  | document (output : Output)
  | log (line : LogLine)

def Line.render : Line → String
  | text message => message.toString
  | document output => output.text
  | log line => "[leo-semantic] " ++ line.text

def Line.ofString (text : String) : Line := .text (.ofString text)

structure Outcome where
  exitCode : Nat
  out : List Line
  err : List Line

inductive Fatal where
  | config (error : ConfigError)
  | resolution (failure : Failure)

namespace Fatal

def message : Fatal → Message
  | config error => .ofString error.message
  | resolution failure => .ofString (failure.name ++ ": ") ++ failure.message

def structured : Fatal → StructuredError
  | config error => .ofMessage "ConfigError" (.ofString error.message)
  | resolution failure => .ofFailure failure

def outcome (fatal : Fatal) (format : OutputFormat) (log : List Line) : Outcome :=
  match format with
  | .json => ⟨1, [.document (.failure [fatal.structured])], log⟩
  | .text => ⟨1, [], log ++ [.text fatal.message]⟩

end Fatal

def FlagError.fatal : FlagError → Fatal
  | config error => .config error
  | system error => .resolution (.system error)

structure Loaded where
  program : Program
  filePath : String

def load (workspace : Workspace) (config : Config) (file : String) : Resolution Loaded := do
  match workspace.resolve file with
  | .error error => throw (.system error)
  | .ok path =>
    let tree ← Resolution.parseFile workspace path
    let program := Program.ofFile tree (Path.baseName path sourceExtension)
    Resolver.resolveProgram ⟨workspace, config.packageRoot⟩ program (some path)
    return ⟨program, path⟩

def shownLog (config : Config) (session : Session) : List Line :=
  (session.log.filter (·.level.shownAt config.logLevel)).map .log

inductive Action where
  | check | imports
  deriving DecidableEq

def Action.name : Action → String
  | check => "check"
  | imports => "imports"

def Action.ofName? (name : String) : Option Action :=
  [Action.check, .imports].find? (·.name = name)

def Action.synopsis (action : Action) : String :=
  "leo-check " ++ action.name ++ " [--format=json|text] [--root <dir>] <file>"

def usage : List Line :=
  [.ofString "Usage:",
    .ofString ("  " ++ Action.check.synopsis),
    .ofString ("  " ++ Action.imports.synopsis),
    .ofString "",
    .ofString "Environment:",
    .ofString "  LOG_LEVEL         error | warn | info | debug (default: info)",
    .ofString "  LEO_PACKAGE_ROOT  package root searched by imports (default: working directory)"]

def reportCheck (loaded : Loaded) (diagnostics : List Diagnostic) (format : OutputFormat)
    (log : List Line) : Outcome :=
  let exitCode := if diagnostics = [] then 0 else 1
  match format with
  | .json =>
    let output := if diagnostics = [] then Output.success
      else .failure (diagnostics.map StructuredError.ofDiagnostic)
    ⟨exitCode, [.document output], log⟩
  | .text =>
    if diagnostics = [] then
      ⟨exitCode, [.ofString ("✓ " ++ loaded.program.name ++ ": no type errors")], log⟩
    else ⟨exitCode, [], log ++ diagnostics.map fun diagnostic => .ofString diagnostic.text⟩

def reportImports (store : DefinitionStore) (format : OutputFormat) (log : List Line) : Outcome :=
  let definitions := store.entries.map fun entry => (entry.1, entry.2.kind)
  match format with
  | .json => ⟨0, [.document (.listing definitions)], log⟩
  | .text => ⟨0, definitions.map fun entry => .ofString (entry.1 ++ "\t" ++ entry.2), log⟩

def perform (workspace : Workspace) (config : Config) (action : Action) (file : String) : Outcome :=
  match (load workspace config file).run (.start .empty) with
  | .error failure session =>
    (Fatal.resolution failure).outcome config.format (shownLog config session)
  | .ok loaded session =>
    match action with
    | .check =>
      let diagnostics := loaded.program.typecheck (circuitNames session.store)
        (some loaded.filePath)
      reportCheck loaded diagnostics config.format (shownLog config session)
    | .imports => reportImports session.store config.format (shownLog config session)

inductive Request where
  | help
  | unknownCommand (name : String)
  | missingFile (action : Action)
  | perform (config : Config) (action : Action) (file : String)
  | refused (error : Fatal)

/-- Reads a command line. The settings are looked at before the command. -/
def request (environment : Environment) (workspace : Workspace) : List String → Request
  | [] => .help
  | name :: rest =>
    if name = "" then .help
    else
      match Config.ofEnvironment environment with
      | .error error => .refused (.config error)
      | .ok config =>
        match Flags.parse workspace rest with
        | .error error => .refused error.fatal
        | .ok flags =>
          match Action.ofName? name, flags.positional with
          | none, _ => .unknownCommand name
          | some action, [] => .missingFile action
          | some action, file :: _ => .perform (flags.apply config) action file

def readPaths (environment : Environment) (workspace : Workspace) (arguments : List String) :
    List String :=
  match request environment workspace arguments with
  | .perform config _ file =>
    let root := match config.packageRoot with
      | some root => root
      | none => "."
    [file, Path.join root sourceDirectory].filterMap fun path => (workspace.resolve path).toOption
  | _ => []

def run (environment : Environment) (workspace : Workspace) (arguments : List String) : Outcome :=
  match request environment workspace arguments with
  | .help => ⟨1, usage, []⟩
  | .unknownCommand name => ⟨1, usage, [.ofString ("Unknown command '" ++ name ++ "'")]⟩
  | .missingFile action => ⟨1, [], [.ofString ("Usage: " ++ action.synopsis)]⟩
  | .perform config action file => perform workspace config action file
  | .refused error => error.outcome .text []

end LeoFront.Command

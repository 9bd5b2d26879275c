import LeoFront.Files.Workspace
import LeoFront.Log

namespace LeoFront.Command

inductive OutputFormat where
  | text | json
  deriving DecidableEq

inductive ConfigError where
  | logLevel (value : String)
  | format (value : String)
  deriving DecidableEq

def ConfigError.message : ConfigError → String
  | logLevel value =>
    String.join ["Invalid log level: ", value, ". Must be one of ",
      ", ".intercalate (LogLevel.all.map LogLevel.text), "."]
  | format value => String.join ["Invalid format: ", value, ". Must be 'text' or 'json'."]

structure Config where
  logLevel : LogLevel
  packageRoot : Option String
  format : OutputFormat
  deriving DecidableEq

def parseLogLevel (value : String) : Except ConfigError LogLevel :=
  match LogLevel.ofText? value with
  | some level => .ok level
  | none => .error (.logLevel value)

def OutputFormat.name : OutputFormat → String
  | text => "text"
  | json => "json"

def parseOutputFormat (value : String) : Except ConfigError OutputFormat :=
  if value = "json" then .ok .json
  else if value = "text" then .ok .text
  else .error (.format value)

structure Environment where
  logLevel : Option String
  packageRoot : Option String

def Config.ofEnvironment (environment : Environment) : Except ConfigError Config := do
  let set (value : Option String) : Option String := value.filter (· ≠ "")
  let logLevel ← match set environment.logLevel with
    | some value => parseLogLevel value
    | none => .ok .info
  return ⟨logLevel, set environment.packageRoot, .text⟩

inductive FlagError where
  | config (error : ConfigError)
  | system (error : OsError)

inductive Flag where
  | format | root
  deriving DecidableEq

def Flag.text : Flag → String
  | format => "--format"
  | root => "--root"

def Flag.all : List Flag := [format, root]

structure Flags where
  positional : List String
  format : Option OutputFormat
  packageRoot : Option String
  deriving DecidableEq

namespace Flags

def empty : Flags := ⟨[], none, none⟩

def set (workspace : Workspace) (flags : Flags) (value : String) : Flag → Except FlagError Flags
  | .format =>
    match parseOutputFormat value with
    | .ok format => .ok { flags with format := some format }
    | .error error => .error (.config error)
  | .root =>
    match workspace.resolve value with
    | .ok root => .ok { flags with packageRoot := some root }
    | .error error => .error (.system error)

def bare? (argument : String) : Option Flag := Flag.all.find? (·.text = argument)

def withValue? (argument : String) : Option (Flag × String) :=
  Flag.all.findSome? fun flag =>
    let start := flag.text.toList ++ ['=']
    if start.isPrefixOf argument.toList then
      some (flag, String.ofList (argument.toList.drop start.length))
    else none

def takeAlone (workspace : Workspace) (flags : Flags) (argument : String) :
    Except FlagError Flags :=
  if argument = "" then .ok flags
  else
    match withValue? argument with
    | some (flag, value) => flags.set workspace value flag
    | none => .ok { flags with positional := flags.positional ++ [argument] }

/-- Takes arguments one after the other. A flag without a value at the end is an argument like any
other. -/
def collect (workspace : Workspace) (flags : Flags) : List String → Except FlagError Flags
  | [] => .ok flags
  | [last] => flags.takeAlone workspace last
  | argument :: next :: rest =>
    match bare? argument with
    | some flag => do
      let flags ← flags.set workspace next flag
      flags.collect workspace rest
    | none => do
      let flags ← flags.takeAlone workspace argument
      flags.collect workspace (next :: rest)

def parse (workspace : Workspace) (arguments : List String) : Except FlagError Flags :=
  empty.collect workspace arguments

def apply (flags : Flags) (config : Config) : Config :=
  { config with
    format := flags.format.getD config.format
    packageRoot := flags.packageRoot.or config.packageRoot }

end Flags

end LeoFront.Command

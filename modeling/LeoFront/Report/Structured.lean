import LeoFront.Check.Diagnostic
import LeoFront.Report.Json
import LeoFront.Resolution.Fault

namespace LeoFront.Report
open Text (Message)

structure Location where
  line : Nat
  column : Nat
  file : Option String
  deriving DecidableEq

structure StructuredError where
  errorType : String
  message : Message
  location : Option Location
  deriving DecidableEq

inductive Status where
  | success | error
  deriving DecidableEq

structure Output where
  status : Status
  errors : Option (List StructuredError)
  result : Option (List (String × String))
  deriving DecidableEq

namespace Location

def ofSpan (span : Span) (file : Option String) : Location :=
  ⟨span.start.line, span.start.column, file⟩

def json (location : Location) : Json :=
  .object ([("line", .number location.line), ("column", .number location.column)] ++
    match location.file with
    | some file => [("file", .string (.ofString file))]
    | none => [])

end Location

namespace StructuredError

def ofMessage (errorType : String) (message : Message) : StructuredError :=
  ⟨errorType, message, none⟩

def ofDiagnostic (diagnostic : Diagnostic) : StructuredError :=
  ⟨diagnostic.fault.code, .ofString diagnostic.fault.message,
    some (.ofSpan diagnostic.span diagnostic.filePath)⟩

def ofImportError (error : ImportError) : StructuredError :=
  ⟨error.fault.kind, .ofString error.fault.message,
    error.span.map fun span => .ofSpan span error.fault.path⟩

def ofFailure : Failure → StructuredError
  | .badImport error => ofImportError error
  | failure => ofMessage failure.name failure.message

def json (error : StructuredError) : Json :=
  .object ([("kind", .string (.ofString "error")),
    ("errorType", .string (.ofString error.errorType)), ("message", .string error.message)] ++
    match error.location with
    | some location => [("location", location.json)]
    | none => [])

end StructuredError

def Status.text : Status → String
  | .success => "success"
  | .error => "error"

namespace Output

def success : Output := ⟨.success, none, none⟩

def failure (errors : List StructuredError) : Output := ⟨.error, some errors, none⟩

def listing (definitions : List (String × String)) : Output := ⟨.success, none, some definitions⟩

def json (output : Output) : Json :=
  let errors := match output.errors with
    | some errors => [("errors", .array (errors.map StructuredError.json))]
    | none => []
  let result := match output.result with
    | some definitions => [("result", .array (definitions.map fun definition => .object
        [("name", .string (.ofString definition.1)), ("kind", .string (.ofString definition.2))]))]
    | none => []
  .object ([("status", .string (.ofString output.status.text))] ++ errors ++ result)

def text (output : Output) : String := output.json.text

end Output

end LeoFront.Report

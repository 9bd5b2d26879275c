import LeoFront.Source.Span

namespace LeoFront

inductive Fault where
  | duplicateVariable (name : String)
  | functionHasNoReturn (function : String)
  | duplicateCircuitMember (circuit : String)
  | duplicateRecordVariable (record : String)
  | requiredRecordVariable (name type : String)
  | recordVarWrongType (name type : String)
  | unknownSymbol (kind name : String)
  deriving DecidableEq

namespace Fault

def code : Fault → String
  | duplicateVariable _ => "DuplicateVariable"
  | functionHasNoReturn _ => "FunctionHasNoReturn"
  | duplicateCircuitMember _ => "DuplicateCircuitMember"
  | duplicateRecordVariable _ => "DuplicateRecordVariable"
  | requiredRecordVariable .. => "RequiredRecordVariable"
  | recordVarWrongType .. => "RecordVarWrongType"
  | unknownSymbol .. => "UnknownSymbol"

def message : Fault → String
  | duplicateVariable name =>
    "Variable `" ++ name ++ "` is declared more than once in this scope."
  | functionHasNoReturn function =>
    "The function `" ++ function ++ "` has no return statement."
  | duplicateCircuitMember circuit =>
    "Circuit `" ++ circuit ++ "` defined with more than one member with the same name."
  | duplicateRecordVariable record =>
    "Record `" ++ record ++ "` defined with more than one variable with the same name."
  | requiredRecordVariable name type =>
    "The `record` type requires the variable `" ++ name ++ ": " ++ type ++ "`."
  | recordVarWrongType name type =>
    "The field `" ++ name ++ "` in a `record` must have type `" ++ type ++ "`."
  | unknownSymbol kind name => "Unknown " ++ kind ++ " `" ++ name ++ "`."

end Fault

structure Diagnostic where
  fault : Fault
  span : Span
  filePath : Option String
  deriving DecidableEq

def Span.locationText (span : Span) : String :=
  "line " ++ toString span.start.line ++ ", column " ++ toString span.start.column

def Diagnostic.text (diagnostic : Diagnostic) : String :=
  let file := match diagnostic.filePath with
    | some path => path ++ ": "
    | none => ""
  file ++ diagnostic.span.locationText ++ ": " ++ diagnostic.fault.message

/-- Collects diagnostics. Each one is also shown, as it comes, to an observer with a state of its
own. -/
structure Handler (σ : Type) where
  errors : List Diagnostic
  observe : σ → Diagnostic → σ
  observed : σ

namespace Handler
variable {σ : Type}

def new (observe : σ → Diagnostic → σ) (observed : σ) : Handler σ := ⟨[], observe, observed⟩

def unobserved : Handler Unit := new (fun _ _ => ()) ()

def emit (handler : Handler σ) (diagnostic : Diagnostic) : Handler σ :=
  { handler with
    errors := handler.errors ++ [diagnostic]
    observed := handler.observe handler.observed diagnostic }

theorem foldl_emit (handler : Handler σ) (diagnostics : List Diagnostic) :
    diagnostics.foldl emit handler = ⟨handler.errors ++ diagnostics, handler.observe,
      diagnostics.foldl handler.observe handler.observed⟩ := by
  induction diagnostics generalizing handler with
  | nil => simp
  | cons first rest ih => simp [ih, emit]

def errorCount (handler : Handler σ) : Nat := handler.errors.length

def hadErrors (handler : Handler σ) : Bool := !handler.errors.isEmpty

end Handler

end LeoFront

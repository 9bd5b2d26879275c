import LeoFront.Check.Circuit
import LeoFront.Check.Function

namespace LeoFront

def SymbolTable.ofProgram (program : Program) (known : List String) : SymbolTable :=
  let named := known.foldl (fun table name => table.insertCircuit name none) SymbolTable.empty
  program.circuits.entries.foldl
    (fun table entry => table.insertCircuit entry.1 (some entry.2)) named

namespace Checker
variable {σ : Type}

def visitProgram (program : Program) (checker : Checker σ) : Checker σ :=
  let circuits := program.circuits.values.foldl (fun checker circuit => visitCircuit circuit checker)
    checker
  program.functions.values.foldl (fun checker function => visitFunction function checker) circuits

end Checker

namespace Program
variable {σ : Type}

/-- Checks a program with a handler that may have served other runs. Gives the diagnostics of this run
and the handler after it. -/
def typecheckWith (program : Program) (known : List String) (filePath : Option String)
    (handler : Handler σ) : List Diagnostic × Handler σ :=
  let checker := Checker.new (SymbolTable.ofProgram program known) handler filePath
  let checked := (checker.visitProgram program).handler
  (checked.errors.drop handler.errorCount, checked)

def typecheck (program : Program) (known : List String) (filePath : Option String) :
    List Diagnostic :=
  (program.typecheckWith known filePath .unobserved).1

end Program

end LeoFront

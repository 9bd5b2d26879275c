import LeoFront.Check.SymbolTable

namespace LeoFront

structure Checker (σ : Type) where
  symbols : SymbolTable
  handler : Handler σ
  hasReturn : Bool
  parent : Option String
  filePath : Option String

namespace Checker
variable {σ : Type}

def new (symbols : SymbolTable) (handler : Handler σ) (filePath : Option String) : Checker σ :=
  ⟨symbols, handler, false, none, filePath⟩

def report (checker : Checker σ) (fault : Fault) (span : Span) : Checker σ :=
  { checker with handler := checker.handler.emit ⟨fault, span, checker.filePath⟩ }

def checkType (checker : Checker σ) : Ty → Checker σ
  | .named identifier =>
    if checker.symbols.hasCircuit identifier.name then checker
    else checker.report (.unknownSymbol "circuit" identifier.name) identifier.span
  | .primitive _ | .unresolved => checker

def checkType? (checker : Checker σ) : Option Ty → Checker σ
  | some type => checker.checkType type
  | none => checker

def declare (checker : Checker σ) (name : String) (declared : Variable) : Checker σ :=
  match checker.symbols.insertVariable name declared checker.filePath with
  | .ok symbols => { checker with symbols }
  | .error diagnostic => { checker with handler := checker.handler.emit diagnostic }

def enterScope (checker : Checker σ) : Checker σ :=
  { checker with symbols := checker.symbols.enterScope }

def exitScope (checker : Checker σ) : Checker σ :=
  { checker with symbols := checker.symbols.exitScope }

end Checker

end LeoFront

import LeoFront.Check.Diagnostic
import LeoFront.Program.Basic

namespace LeoFront

inductive Origin where
  | input (mode : Mode)
  | constant
  | mutable
  deriving DecidableEq

structure Variable where
  type : Ty
  span : Span
  origin : Origin
  deriving DecidableEq

abbrev Scope := NameTable Variable

structure SymbolTable where
  /-- The known circuits; for some only the name is known. -/
  circuits : NameTable (Option Circuit)
  innermost : Scope
  enclosing : List Scope

namespace SymbolTable

def empty : SymbolTable := ⟨.empty, .empty, []⟩

def scopes (table : SymbolTable) : List Scope := table.innermost :: table.enclosing

def insertCircuit (table : SymbolTable) (name : String) (circuit : Option Circuit) : SymbolTable :=
  { table with circuits := table.circuits.insert name circuit }

def lookupCircuit (table : SymbolTable) (name : String) : Option (Option Circuit) :=
  table.circuits.get? name

def hasCircuit (table : SymbolTable) (name : String) : Bool :=
  table.circuits.contains name

def lookupVariable (table : SymbolTable) (name : String) : Option Variable :=
  table.scopes.findSome? (·.get? name)

/-- Declares a variable in the innermost scope. A name that is visible already is refused. -/
def insertVariable (table : SymbolTable) (name : String) (declared : Variable)
    (filePath : Option String) : Except Diagnostic SymbolTable :=
  match table.lookupVariable name with
  | some _ => .error ⟨.duplicateVariable name, declared.span, filePath⟩
  | none => .ok { table with innermost := table.innermost.insert name declared }

def enterScope (table : SymbolTable) : SymbolTable :=
  { table with innermost := .empty, enclosing := table.scopes }

def exitScope (table : SymbolTable) : SymbolTable :=
  match table.enclosing with
  | [] => table
  | outer :: others => { table with innermost := outer, enclosing := others }

def clearVariables (table : SymbolTable) : SymbolTable :=
  { table with innermost := .empty, enclosing := [] }

def variableCount (table : SymbolTable) : Nat :=
  table.scopes.foldl (fun count scope => count + scope.size) 0

end SymbolTable

end LeoFront

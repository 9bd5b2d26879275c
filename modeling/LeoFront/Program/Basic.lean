import LeoFront.Table
import LeoFront.Syntax.File

namespace LeoFront

structure Program where
  name : String
  imports : List Import
  circuits : NameTable Circuit
  functions : NameTable FunctionDecl

namespace Program

def declare (program : Program) : Declaration → Program
  | .circuit circuit =>
    { program with circuits := program.circuits.insert circuit.identifier.name circuit }
  | .function function =>
    { program with functions := program.functions.insert function.identifier.name function }

def ofFile (file : File) (name : String) : Program :=
  file.declarations.foldl declare ⟨name, file.imports, .empty, .empty⟩

def rename (program : Program) (name : String) : Program :=
  { program with name := name }

end Program

end LeoFront

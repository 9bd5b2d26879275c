import LeoFront.Program.Basic

namespace LeoFront

inductive Definition where
  | circuit (localName : String) (circuit : Circuit)
  | function (boundCircuit : Option String) (function : FunctionDecl)

abbrev DefinitionStore := NameTable Definition

def qualify (owner name : String) : String := owner ++ "_" ++ name

namespace Definition

def kind : Definition → String
  | circuit .. => "CircuitDefinition"
  | function .. => "Function"

def circuitName? : Definition → Option String
  | circuit localName _ => some localName
  | function .. => none

end Definition

def circuitNames (store : DefinitionStore) : List String :=
  store.values.filterMap Definition.circuitName?

def Program.definition? (program : Program) (name localName : String) : Option Definition :=
  match program.circuits.get? name with
  | some circuit => some (.circuit localName circuit)
  | none =>
    match program.functions.get? name with
    | some function => some (.function none function)
    | none => none

def Program.definitions (program : Program) : List (String × Definition) :=
  program.circuits.entries.map
    (fun entry => (qualify program.name entry.1, .circuit entry.1 entry.2)) ++
  program.functions.entries.map
    (fun entry => (qualify program.name entry.1, .function none entry.2))

end LeoFront

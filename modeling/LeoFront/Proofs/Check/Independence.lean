import LeoFront.Proofs.Check.Program

namespace LeoFront

namespace Checker
variable {σ : Type}

def circuitAlone (symbols : SymbolTable) (filePath : Option String) (circuit : Circuit) :
    List Diagnostic :=
  (visitCircuit circuit (.new symbols .unobserved filePath)).handler.errors

def functionAlone (symbols : SymbolTable) (filePath : Option String) (function : FunctionDecl) :
    List Diagnostic :=
  (visitFunction function (.new symbols .unobserved filePath)).handler.errors

theorem circuitAlone_eq (symbols : SymbolTable) (filePath : Option String) (circuit : Circuit) :
    circuitAlone symbols filePath circuit = circuit.diagnostics filePath := by
  rw [circuitAlone, visitCircuit_eq, emitAll_errors]
  rfl

theorem functionAlone_eq (symbols : SymbolTable) (filePath : Option String)
    (function : FunctionDecl) : functionAlone symbols filePath function =
      function.scopingDiagnostics symbols.hasCircuit filePath := by
  rw [functionAlone, visitFunction_handler, emitAll_errors]
  rfl

end Checker

namespace Program
variable {σ : Type}

structure Reordered (program other : Program) : Prop where
  circuits : other.circuits.entries.Perm program.circuits.entries
  functions : other.functions.entries.Perm program.functions.entries

theorem Reordered.hasCircuit {program other : Program} (reordered : Reordered program other)
    (known : List String) : (SymbolTable.ofProgram other known).hasCircuit =
      (SymbolTable.ofProgram program known).hasCircuit := by
  have keys (name : String) : name ∈ other.circuits.keys ↔ name ∈ program.circuits.keys :=
    (reordered.circuits.map Prod.fst).mem_iff
  funext name
  rw [Bool.eq_iff_iff, SymbolTable.hasCircuit_ofProgram, SymbolTable.hasCircuit_ofProgram, keys]

theorem typecheckWith_alone (program : Program) (known : List String) (filePath : Option String)
    (handler : Handler σ) {symbols : SymbolTable}
    (same : symbols.hasCircuit = (SymbolTable.ofProgram program known).hasCircuit) :
    (program.typecheckWith known filePath handler).1 =
      program.circuits.values.flatMap (Checker.circuitAlone symbols filePath) ++
        program.functions.values.flatMap (Checker.functionAlone symbols filePath) := by
  have circuits : Checker.circuitAlone symbols filePath =
      fun circuit => circuit.diagnostics filePath :=
    funext (Checker.circuitAlone_eq symbols filePath)
  have functions : Checker.functionAlone symbols filePath = fun function =>
      function.scopingDiagnostics (SymbolTable.ofProgram program known).hasCircuit filePath := by
    funext function
    rw [Checker.functionAlone_eq, same]
  rw [typecheckWith_eq, diagnostics, circuits, functions]

/-- The diagnostics of a program are what new checkers that know its circuits report of the circuits
and then of the functions, each visited alone. Any checker that knows these circuits adds the same for
a declaration, whatever it visited before; and where the declarations stand in another order, their
blocks of diagnostics are the same and stand in that order. -/
theorem typecheckWith_blocks (program : Program) (known : List String) (filePath : Option String)
    (handler : Handler σ) :
    let symbols := SymbolTable.ofProgram program known
    (program.typecheckWith known filePath handler).1 =
      program.circuits.values.flatMap (Checker.circuitAlone symbols filePath) ++
        program.functions.values.flatMap (Checker.functionAlone symbols filePath) ∧
    (∀ checker : Checker σ, checker.symbols.hasCircuit = symbols.hasCircuit →
      checker.filePath = filePath →
      (∀ circuit, (checker.visitCircuit circuit).handler.errors =
        checker.handler.errors ++ Checker.circuitAlone symbols filePath circuit) ∧
      ∀ function, (checker.visitFunction function).handler.errors =
        checker.handler.errors ++ Checker.functionAlone symbols filePath function) ∧
    ∀ other, Reordered program other →
      (other.typecheckWith known filePath handler).1 =
        other.circuits.values.flatMap (Checker.circuitAlone symbols filePath) ++
          other.functions.values.flatMap (Checker.functionAlone symbols filePath) := by
  intro symbols
  refine ⟨program.typecheckWith_alone known filePath handler rfl, ?_, ?_⟩
  · intro checker circuits file
    constructor
    · intro circuit
      rw [Checker.circuitAlone_eq, Checker.visitCircuit_eq, Checker.emitAll_errors, file]
    · intro function
      rw [Checker.functionAlone_eq, Checker.visitFunction_handler, Checker.emitAll_errors, circuits,
        file]
  · intro other reordered
    apply typecheckWith_alone
    exact (reordered.hasCircuit known).symm

def returningFunction : FunctionDecl :=
  ⟨⟨"f", .none⟩, [⟨⟨"x", .none⟩, .hidden, u64Type, .none⟩], none,
    .mk [.ret (.var "x" .none) .none] .none, .none⟩

def faultyFunction : FunctionDecl :=
  ⟨⟨"g", .none⟩, [⟨⟨"x", .none⟩, .hidden, .named ⟨"t", .none⟩, .none⟩], none,
    .mk [.binding ⟨.mutable, ⟨"x", .none⟩, none, .var "x" .none, .none⟩] .none, .none⟩

def faultyLast : Program :=
  ⟨"main", [], .empty, ⟨[("f", returningFunction), ("g", faultyFunction)], by decide⟩⟩

def faultyFirst : Program :=
  ⟨"main", [], .empty, ⟨[("g", faultyFunction), ("f", returningFunction)], by decide⟩⟩

def handedOn : Checker Unit :=
  Checker.visitFunction returningFunction
    (.new (SymbolTable.ofProgram faultyLast []) .unobserved none)

theorem faultyFirst_blocks :
    Reordered faultyLast faultyFirst ∧
    handedOn.hasReturn = true ∧ handedOn.symbols.variableCount = 1 ∧
    (handedOn.visitFunction faultyFunction).handler.errors =
      [⟨.unknownSymbol "circuit" "t", .none, none⟩, ⟨.duplicateVariable "x", .none, none⟩,
        ⟨.functionHasNoReturn "g", .none, none⟩] ∧
    (faultyFirst.typecheckWith [] none .unobserved).1 =
      [⟨.unknownSymbol "circuit" "t", .none, none⟩, ⟨.duplicateVariable "x", .none, none⟩,
        ⟨.functionHasNoReturn "g", .none, none⟩] := by
  have reordered : Reordered faultyLast faultyFirst := ⟨.nil, .swap ..⟩
  obtain ⟨-, anyChecker, moved⟩ := typecheckWith_blocks faultyLast [] none .unobserved
  have alone : Checker.functionAlone (SymbolTable.ofProgram faultyLast []) none faultyFunction =
      [⟨.unknownSymbol "circuit" "t", .none, none⟩, ⟨.duplicateVariable "x", .none, none⟩,
        ⟨.functionHasNoReturn "g", .none, none⟩] := by
    decide
  have fine : Checker.functionAlone (SymbolTable.ofProgram faultyLast []) none returningFunction =
      [] := by
    decide
  refine ⟨reordered, by decide, by decide, ?_, ?_⟩
  · rw [(anyChecker handedOn rfl rfl).2 faultyFunction, alone]
    rfl
  · rw [moved faultyFirst reordered]
    simp [faultyFirst, Table.values, Table.empty, alone, fine]

end Program

end LeoFront

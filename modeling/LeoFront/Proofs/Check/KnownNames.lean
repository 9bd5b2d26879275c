import LeoFront.Proofs.Check.Program
import LeoFront.Proofs.Resolution.Selection

namespace LeoFront

def Diagnostic.misses (diagnostic : Diagnostic) (names : List String) : Bool :=
  match diagnostic.fault with
  | .unknownSymbol _ name => names.contains name
  | _ => false

section
variable {known more : String → Bool} {names : List String} (filePath : Option String)

theorem typeDiagnostics_more (grown : ∀ name, more name = (known name || names.contains name))
    (type : Option Ty) : Checker.typeDiagnostics more filePath type =
      (Checker.typeDiagnostics known filePath type).filter (!·.misses names) := by
  match type with
  | none | some (.primitive _) | some .unresolved => rfl
  | some (.named identifier) =>
    simp only [Checker.typeDiagnostics, grown]
    cases known identifier.name
    · cases listed : names.contains identifier.name <;>
        simp [Diagnostic.misses, listed, -List.contains_eq_mem]
    · simp

theorem siteDiagnostics_more (grown : ∀ name, more name = (known name || names.contains name))
    (earlier sites : List Site) : siteDiagnostics more filePath earlier sites =
      (siteDiagnostics known filePath earlier sites).filter (!·.misses names) := by
  induction sites generalizing earlier with
  | nil => rfl
  | cons site rest ih =>
    simp only [siteDiagnostics, List.filter_append, typeDiagnostics_more filePath grown, ih]
    congr 2
    split <;> rfl

theorem FunctionDecl.scopingDiagnostics_more
    (grown : ∀ name, more name = (known name || names.contains name)) (function : FunctionDecl) :
    function.scopingDiagnostics more filePath =
      (function.scopingDiagnostics known filePath).filter (!·.misses names) := by
  rw [scopingDiagnostics, scopingDiagnostics, List.filter_append,
    siteDiagnostics_more filePath grown]
  congr 1
  split <;> rfl

theorem Circuit.diagnostics_kept (circuit : Circuit) (names : List String) :
    (circuit.diagnostics filePath).filter (!·.misses names) = circuit.diagnostics filePath := by
  refine List.filter_eq_self.mpr fun diagnostic reported => ?_
  cases fault : diagnostic.fault with
  | unknownSymbol kind name => exact absurd reported (circuit.unknownSymbol_not_mem filePath fault)
  | _ => simp [Diagnostic.misses, fault]

theorem Program.diagnostics_more
    (grown : ∀ name, more name = (known name || names.contains name)) (program : Program) :
    program.diagnostics more filePath =
      (program.diagnostics known filePath).filter (!·.misses names) := by
  simp only [diagnostics, List.filter_append, List.filter_flatMap, Circuit.diagnostics_kept,
    FunctionDecl.scopingDiagnostics_more filePath grown]

end

namespace Program
variable {σ : Type}

theorem hasCircuit_append (program : Program) (known more : List String) (name : String) :
    (SymbolTable.ofProgram program (known ++ more)).hasCircuit name =
      ((SymbolTable.ofProgram program known).hasCircuit name || more.contains name) := by
  rw [Bool.eq_iff_iff, Bool.or_eq_true, List.contains_iff_mem, SymbolTable.hasCircuit_ofProgram,
    SymbolTable.hasCircuit_ofProgram, List.mem_append, or_assoc]

/-- A run that knows more names reports what it reports without them, in the same order, only not that
one of these names is unknown. So a run goes by the set of the known names, and the names of the
program's own circuits make no difference. -/
theorem typecheckWith_append_known (program : Program) (filePath : Option String)
    (handler : Handler σ) (known : List String) :
    (∀ more, (program.typecheckWith (known ++ more) filePath handler).1 =
      (program.typecheckWith known filePath handler).1.filter (!·.misses more)) ∧
    ∀ other : List String,
      (∀ name, name ∉ program.circuits.keys → (name ∈ other ↔ name ∈ known)) →
      program.typecheckWith other filePath handler =
        program.typecheckWith known filePath handler := by
  constructor
  · intro more
    rw [typecheckWith_eq, typecheckWith_eq]
    exact diagnostics_more filePath (program.hasCircuit_append known more) program
  · intro other alike
    have circuits : (SymbolTable.ofProgram program other).hasCircuit =
        (SymbolTable.ofProgram program known).hasCircuit := by
      funext name
      rw [Bool.eq_iff_iff, SymbolTable.hasCircuit_ofProgram, SymbolTable.hasCircuit_ofProgram]
      by_cases own : name ∈ program.circuits.keys
      · simp [own]
      · rw [alike name own]
    have reports : (program.typecheckWith other filePath handler).1 =
        (program.typecheckWith known filePath handler).1 := by
      rw [typecheckWith_eq, typecheckWith_eq, circuits]
    refine Prod.ext reports ?_
    rw [typecheckWith_handler, typecheckWith_handler, reports]

def borrowing : Program :=
  .ofText "circuit own \x7b a: u8 \x7d
    function f(x: left, y: own) \x7b let x: right = y; let z: left = x; \x7d" "main"

theorem borrowing_reports :
    (borrowing.typecheckWith [] none .unobserved).1.map (·.fault) =
      [.unknownSymbol "circuit" "left", .unknownSymbol "circuit" "right", .duplicateVariable "x",
        .unknownSymbol "circuit" "left", .functionHasNoReturn "f"] ∧
    (borrowing.typecheckWith ["left"] none .unobserved).1.map (·.fault) =
      [.unknownSymbol "circuit" "right", .duplicateVariable "x", .functionHasNoReturn "f"] ∧
    borrowing.typecheckWith ["own", "left", "own"] none .unobserved =
      borrowing.typecheckWith ["left"] none .unobserved := by
  have alone : (borrowing.typecheckWith [] none .unobserved).1.map (·.fault) =
      [.unknownSymbol "circuit" "left", .unknownSymbol "circuit" "right", .duplicateVariable "x",
        .unknownSymbol "circuit" "left", .functionHasNoReturn "f"] := by
    decide +kernel
  have filtered : ((borrowing.typecheckWith [] none .unobserved).1.filter
      (!·.misses ["left"])).map (·.fault) =
        [.unknownSymbol "circuit" "right", .duplicateVariable "x", .functionHasNoReturn "f"] := by
    decide +kernel
  have own : borrowing.circuits.keys = ["own"] := by decide +kernel
  refine ⟨alone, ?_, ?_⟩
  · rw [← filtered]
    exact congrArg _ ((borrowing.typecheckWith_append_known none .unobserved []).1 ["left"])
  · refine (borrowing.typecheckWith_append_known none .unobserved ["left"]).2 _ ?_
    intro name other
    rw [own, List.mem_singleton] at other
    simp [other]

end Program

end LeoFront

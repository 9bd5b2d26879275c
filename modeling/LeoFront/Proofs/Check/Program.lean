import LeoFront.Check.Program
import LeoFront.Proofs.Check.Scoping

namespace LeoFront

namespace SymbolTable

theorem hasCircuit_insertCircuit (table : SymbolTable) (inserted name : String)
    (circuit : Option Circuit) : (table.insertCircuit inserted circuit).hasCircuit name = true ↔
      inserted = name ∨ table.hasCircuit name = true := by
  simp only [hasCircuit, insertCircuit, Table.contains_iff, Table.keys_insert]
  split <;> grind

theorem hasCircuit_foldl {ι : Type} (label : ι → String) (circuit : ι → Option Circuit)
    (items : List ι) (table : SymbolTable) (name : String) :
    (items.foldl (fun table item => table.insertCircuit (label item) (circuit item))
      table).hasCircuit name = true ↔ name ∈ items.map label ∨ table.hasCircuit name = true := by
  induction items generalizing table with
  | nil => simp
  | cons first rest ih =>
    rw [List.foldl_cons, ih, hasCircuit_insertCircuit]
    grind

theorem hasCircuit_ofProgram (program : Program) (known : List String) (name : String) :
    (ofProgram program known).hasCircuit name = true ↔
      name ∈ program.circuits.keys ∨ name ∈ known := by
  rw [ofProgram, hasCircuit_foldl Prod.fst fun entry => some entry.2]
  refine or_congr Iff.rfl ((hasCircuit_foldl id (fun _ => none) known empty name).trans ?_)
  simp [hasCircuit, empty, Table.contains]

end SymbolTable

def Circuit.requiredDiagnostics (record : Circuit) (filePath : Option String)
    (required : String × Ty) : List Diagnostic :=
  match record.members.find? (·.identifier.name = required.1) with
  | none => [⟨.requiredRecordVariable required.1 required.2.text, record.span, filePath⟩]
  | some member =>
    if required.2.eqFlat member.type then []
    else [⟨.recordVarWrongType member.identifier.name required.2.text, record.span, filePath⟩]

def Circuit.diagnostics (circuit : Circuit) (filePath : Option String) : List Diagnostic :=
  (if allUnused [] (circuit.members.map (·.identifier.name)) then []
  else if circuit.isRecord then
    [⟨.duplicateRecordVariable circuit.identifier.name, circuit.span, filePath⟩]
  else [⟨.duplicateCircuitMember circuit.identifier.name, circuit.span, filePath⟩]) ++
  if circuit.isRecord then requiredRecordFields.flatMap (circuit.requiredDiagnostics filePath)
  else []

inductive Circuit.HasFault (circuit : Circuit) : Fault → Prop
  | circuitMember (kind : circuit.isRecord = false) :
      circuit.HasFault (.duplicateCircuitMember circuit.identifier.name)
  | recordVariable (kind : circuit.isRecord = true) :
      circuit.HasFault (.duplicateRecordVariable circuit.identifier.name)
  | required (kind : circuit.isRecord = true) (name type : String) :
      circuit.HasFault (.requiredRecordVariable name type)
  | wrongType (kind : circuit.isRecord = true) (name type : String) :
      circuit.HasFault (.recordVarWrongType name type)

section
variable {filePath : Option String} {diagnostic : Diagnostic}

theorem Circuit.of_mem_requiredDiagnostics {record : Circuit} (kind : record.isRecord = true)
    {required : String × Ty} (reported : diagnostic ∈ record.requiredDiagnostics filePath required) :
    ∃ fault, record.HasFault fault ∧ diagnostic = ⟨fault, record.span, filePath⟩ := by
  unfold requiredDiagnostics at reported
  split at reported
  · exact ⟨_, .required kind _ _, List.mem_singleton.mp reported⟩
  · split at reported
    · cases reported
    · exact ⟨_, .wrongType kind _ _, List.mem_singleton.mp reported⟩

theorem Circuit.of_mem_diagnostics {circuit : Circuit}
    (reported : diagnostic ∈ circuit.diagnostics filePath) :
    ∃ fault, circuit.HasFault fault ∧ diagnostic = ⟨fault, circuit.span, filePath⟩ := by
  rcases List.mem_append.mp reported with duplicate | missing
  · split at duplicate
    · cases duplicate
    split at duplicate
    · rename_i kind
      exact ⟨_, .recordVariable kind, List.mem_singleton.mp duplicate⟩
    · rename_i kind
      exact ⟨_, .circuitMember (eq_false_of_ne_true kind), List.mem_singleton.mp duplicate⟩
  · split at missing
    · rename_i kind
      obtain ⟨required, -, reported⟩ := List.mem_flatMap.mp missing
      exact of_mem_requiredDiagnostics kind reported
    · cases missing

theorem Circuit.unknownSymbol_not_mem (circuit : Circuit) (filePath : Option String)
    {kind name : String} (unknown : diagnostic.fault = .unknownSymbol kind name) :
    diagnostic ∉ circuit.diagnostics filePath := by
  intro reported
  obtain ⟨fault, hasFault, rfl⟩ := of_mem_diagnostics reported
  cases hasFault <;> cases unknown

end

namespace Checker
variable {σ : Type}

theorem emitAll_nil (checker : Checker σ) : checker.emitAll [] = checker := rfl

theorem emitAll_append (checker : Checker σ) (first second : List Diagnostic) :
    checker.emitAll (first ++ second) = (checker.emitAll first).emitAll second := by
  simp [emitAll]

theorem visitRequired_eq (record : Circuit) (checker : Checker σ) (required : String × Ty) :
    visitRequired record checker required =
      checker.emitAll (record.requiredDiagnostics checker.filePath required) := by
  unfold visitRequired Circuit.requiredDiagnostics
  cases record.members.find? (·.identifier.name = required.1) with
  | none => rfl
  | some member =>
    dsimp only
    split <;> rfl

theorem visitCircuit_eq (circuit : Circuit) (checker : Checker σ) :
    visitCircuit circuit checker = checker.emitAll (circuit.diagnostics checker.filePath) := by
  have required (fields : List (String × Ty)) (checker : Checker σ) :
      fields.foldl (visitRequired circuit) checker =
        checker.emitAll (fields.flatMap (circuit.requiredDiagnostics checker.filePath)) := by
    induction fields generalizing checker with
    | nil => rfl
    | cons first rest ih =>
      rw [List.foldl_cons, ih, visitRequired_eq, List.flatMap_cons, emitAll_append,
        emitAll_filePath]
  unfold visitCircuit Circuit.diagnostics
  rw [emitAll_append]
  by_cases distinct : allUnused [] (circuit.members.map (·.identifier.name)) = true
  · cases kind : circuit.isRecord
    · simp [distinct, emitAll_nil]
    · simp [distinct, required, emitAll_nil]
  · cases kind : circuit.isRecord
    · simp only [distinct, Bool.false_eq_true, if_false, emitAll_nil]
      rfl
    · simp only [distinct, Bool.false_eq_true, if_false, if_true, required]
      rfl

theorem visitFunction_frame (function : FunctionDecl) (checker : Checker σ) :
    (visitFunction function checker).symbols.circuits = checker.symbols.circuits ∧
      (visitFunction function checker).filePath = checker.filePath := by
  let fresh : Checker σ := { checker with
    hasReturn := false
    symbols := checker.symbols.clearVariables
    parent := some function.identifier.name }
  have sees : Sees fresh.symbols [] (function.inputs.length + 0) := by
    intro gap lt name
    simp [fresh, Taken]
  have frame : Frame fresh (visitBlock function.body (function.inputs.foldl visitInput fresh)) :=
    (visitInputs_reported function.inputs 0 fresh [] sees).1.trans (frame_visitBlock _ _)
  have visited : visitFunction function checker =
      if (visitBlock function.body (function.inputs.foldl visitInput fresh)).hasReturn then
        visitBlock function.body (function.inputs.foldl visitInput fresh)
      else (visitBlock function.body (function.inputs.foldl visitInput fresh)).report
        (.functionHasNoReturn function.identifier.name) function.span := rfl
  rw [visited]
  split
  · exact ⟨frame.circuits, frame.filePath⟩
  · exact ⟨frame.circuits, frame.filePath⟩

theorem visitFunctions_handler (functions : List FunctionDecl) (checker : Checker σ) :
    (functions.foldl (fun checker function => visitFunction function checker) checker).handler =
      (checker.emitAll (functions.flatMap fun function => function.scopingDiagnostics
        checker.symbols.hasCircuit checker.filePath)).handler := by
  induction functions generalizing checker with
  | nil => rfl
  | cons first rest ih =>
    obtain ⟨circuits, filePath⟩ := visitFunction_frame first checker
    have known : (visitFunction first checker).symbols.hasCircuit = checker.symbols.hasCircuit := by
      funext name
      simp only [SymbolTable.hasCircuit, circuits]
    rw [List.foldl_cons, ih, known, filePath, List.flatMap_cons, emitAll_append]
    simp only [emitAll_handler, visitFunction_handler]

theorem visitCircuits_eq (circuits : List Circuit) (checker : Checker σ) :
    circuits.foldl (fun checker circuit => visitCircuit circuit checker) checker =
      checker.emitAll (circuits.flatMap fun circuit => circuit.diagnostics checker.filePath) := by
  induction circuits generalizing checker with
  | nil => rfl
  | cons first rest ih =>
    rw [List.foldl_cons, ih, visitCircuit_eq, List.flatMap_cons, emitAll_append, emitAll_filePath]

end Checker

namespace Program
variable {σ : Type}

def diagnostics (program : Program) (known : String → Bool) (filePath : Option String) :
    List Diagnostic :=
  (program.circuits.values.flatMap fun circuit => circuit.diagnostics filePath) ++
    program.functions.values.flatMap fun function => function.scopingDiagnostics known filePath

theorem typecheckWith_eq (program : Program) (known : List String) (filePath : Option String)
    (handler : Handler σ) : (program.typecheckWith known filePath handler).1 =
      program.diagnostics (SymbolTable.ofProgram program known).hasCircuit filePath := by
  have visited : ((Checker.new (SymbolTable.ofProgram program known) handler
      filePath).visitProgram program).handler.errors = handler.errors ++
        program.diagnostics (SymbolTable.ofProgram program known).hasCircuit filePath := by
    rw [Checker.visitProgram, Checker.visitCircuits_eq, Checker.visitFunctions_handler,
      Checker.emitAll_errors, Checker.emitAll_errors, List.append_assoc]
    rfl
  simp [typecheckWith, visited, Handler.errorCount]

theorem typecheckWith_handler (program : Program) (known : List String)
    (filePath : Option String) (handler : Handler σ) :
    (program.typecheckWith known filePath handler).2 =
      (program.typecheckWith known filePath handler).1.foldl Handler.emit handler := by
  rw [typecheckWith_eq, typecheckWith, diagnostics, List.foldl_append, Checker.visitProgram,
    Checker.visitCircuits_eq, Checker.visitFunctions_handler, Checker.emitAll_handler,
    Checker.emitAll_handler]
  rfl

theorem typecheck_eq (program : Program) (known : List String) (filePath : Option String) :
    program.typecheck known filePath =
      program.diagnostics (SymbolTable.ofProgram program known).hasCircuit filePath :=
  program.typecheckWith_eq known filePath .unobserved

def Writes (program : Program) (identifier : Identifier) : Prop :=
  ∃ function ∈ program.functions.values, ∃ site ∈ function.sites,
    site.type = some (.named identifier)

theorem mem_siteDiagnostics_unknownSymbol {known : String → Bool} {filePath : Option String}
    {name : String} {span : Span} {earlier sites : List Site} :
    (⟨.unknownSymbol "circuit" name, span, filePath⟩ : Diagnostic) ∈
        siteDiagnostics known filePath earlier sites ↔
      known name = false ∧ ∃ site ∈ sites, site.type = some (.named ⟨name, span⟩) := by
  constructor
  · intro reported
    obtain ⟨site, member, reports⟩ := of_mem_siteDiagnostics reported
    cases reports with
    | unknown written isUnknown => exact ⟨isUnknown, site, member, written⟩
  · rintro ⟨isUnknown, site, member, written⟩
    exact mem_siteDiagnostics_of_unknown member written isUnknown

/-- A written type is reported as unknown if and only if its name is not known. -/
theorem mem_typecheck_unknownSymbol (program : Program) (known : List String)
    (filePath : Option String) (name : String) (span : Span) :
    (⟨.unknownSymbol "circuit" name, span, filePath⟩ : Diagnostic) ∈
        program.typecheck known filePath ↔
      program.Writes ⟨name, span⟩ ∧ ¬ (name ∈ program.circuits.keys ∨ name ∈ known) := by
  have circuits : (⟨.unknownSymbol "circuit" name, span, filePath⟩ : Diagnostic) ∉
      program.circuits.values.flatMap fun circuit => circuit.diagnostics filePath := by
    intro member
    obtain ⟨circuit, -, reported⟩ := List.mem_flatMap.mp member
    exact circuit.unknownSymbol_not_mem filePath rfl reported
  rw [← SymbolTable.hasCircuit_ofProgram, Bool.not_eq_true, typecheck_eq, diagnostics,
    List.mem_append, or_iff_right circuits, List.mem_flatMap]
  have function (function : FunctionDecl) :
      (⟨.unknownSymbol "circuit" name, span, filePath⟩ : Diagnostic) ∈
        function.scopingDiagnostics (SymbolTable.ofProgram program known).hasCircuit filePath ↔
      (SymbolTable.ofProgram program known).hasCircuit name = false ∧
        ∃ site ∈ function.sites, site.type = some (.named ⟨name, span⟩) := by
    rw [FunctionDecl.scopingDiagnostics, List.mem_append, mem_siteDiagnostics_unknownSymbol]
    refine or_iff_left ?_
    split <;> simp
  simp only [function, Writes]
  grind

theorem of_mem_diagnostics {program : Program} {known : String → Bool} {filePath : Option String}
    {diagnostic : Diagnostic} (reported : diagnostic ∈ program.diagnostics known filePath) :
    (∃ circuit ∈ program.circuits.values, ∃ fault, circuit.HasFault fault ∧
      diagnostic = ⟨fault, circuit.span, filePath⟩) ∨
    ∃ function ∈ program.functions.values,
      (∃ site ∈ function.sites, site.Reports known filePath diagnostic) ∨
        diagnostic = ⟨.functionHasNoReturn function.identifier.name, function.span, filePath⟩ := by
  rcases List.mem_append.mp reported with among | among
  · obtain ⟨circuit, member, reported⟩ := List.mem_flatMap.mp among
    exact .inl ⟨circuit, member, Circuit.of_mem_diagnostics reported⟩
  · obtain ⟨function, member, reported⟩ := List.mem_flatMap.mp among
    exact .inr ⟨function, member, FunctionDecl.of_mem_scopingDiagnostics reported⟩

theorem filePath_typecheck {program : Program} {known : List String} {filePath : Option String}
    {diagnostic : Diagnostic} (reported : diagnostic ∈ program.typecheck known filePath) :
    diagnostic.filePath = filePath := by
  rw [typecheck_eq] at reported
  obtain ⟨_, -, _, -, rfl⟩ | ⟨_, -, ⟨_, -, reports⟩ | rfl⟩ := of_mem_diagnostics reported
  · rfl
  · cases reports <;> rfl
  · rfl

end Program

end LeoFront

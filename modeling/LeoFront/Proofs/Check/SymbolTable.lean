import LeoFront.Check.Function

namespace LeoFront

namespace SymbolTable

@[simp] theorem lookupVariable_enterScope (table : SymbolTable) (name : String) :
    table.enterScope.lookupVariable name = table.lookupVariable name := by
  simp only [lookupVariable, enterScope, scopes, List.findSome?_cons, Table.get?_empty]

@[simp] theorem lookupVariable_clearVariables (table : SymbolTable) (name : String) :
    table.clearVariables.lookupVariable name = none := by
  simp [lookupVariable, clearVariables, scopes]

theorem exitScope_of_enclosing {inside table : SymbolTable}
    (circuits : inside.circuits = table.circuits) (enclosing : inside.enclosing = table.scopes) :
    inside.exitScope = table := by
  simp only [scopes] at enclosing
  simp only [exitScope, enclosing, circuits]

theorem lookupVariable_insert (table : SymbolTable) (name other : String) (declared : Variable) :
    lookupVariable { table with innermost := table.innermost.insert name declared } other =
      if name = other then some declared else table.lookupVariable other := by
  simp only [lookupVariable, scopes, List.findSome?_cons, Table.get?_insert]
  by_cases same : name = other
  · simp [same]
  · simp [same]

end SymbolTable

namespace Checker
variable {σ : Type}

def emitAll (checker : Checker σ) (diagnostics : List Diagnostic) : Checker σ :=
  { checker with handler := diagnostics.foldl Handler.emit checker.handler }

@[simp] theorem emitAll_symbols (checker : Checker σ) (diagnostics : List Diagnostic) :
    (checker.emitAll diagnostics).symbols = checker.symbols := rfl

@[simp] theorem emitAll_filePath (checker : Checker σ) (diagnostics : List Diagnostic) :
    (checker.emitAll diagnostics).filePath = checker.filePath := rfl

@[simp] theorem emitAll_hasReturn (checker : Checker σ) (diagnostics : List Diagnostic) :
    (checker.emitAll diagnostics).hasReturn = checker.hasReturn := rfl

theorem emitAll_handler (checker : Checker σ) (diagnostics : List Diagnostic) :
    (checker.emitAll diagnostics).handler = diagnostics.foldl Handler.emit checker.handler := rfl

theorem emitAll_errors (checker : Checker σ) (diagnostics : List Diagnostic) :
    (checker.emitAll diagnostics).handler.errors = checker.handler.errors ++ diagnostics := by
  rw [emitAll_handler, Handler.foldl_emit]

def typeDiagnostics (known : String → Bool) (filePath : Option String) :
    Option Ty → List Diagnostic
  | some (.named identifier) =>
    if known identifier.name then []
    else [⟨.unknownSymbol "circuit" identifier.name, identifier.span, filePath⟩]
  | _ => []

theorem checkType?_eq (checker : Checker σ) (type : Option Ty) :
    checker.checkType? type =
      checker.emitAll (typeDiagnostics checker.symbols.hasCircuit checker.filePath type) := by
  cases type with
  | none => rfl
  | some type =>
    cases type with
    | named identifier =>
      simp only [checkType?, checkType, typeDiagnostics]
      split <;> rfl
    | primitive _ => rfl
    | unresolved => rfl

theorem checkType_eq (checker : Checker σ) (type : Ty) :
    checker.checkType type =
      checker.emitAll (typeDiagnostics checker.symbols.hasCircuit checker.filePath (some type)) :=
  checkType?_eq checker (some type)

theorem declare_refused {checker : Checker σ} {name : String} (declared : Variable)
    (taken : (checker.symbols.lookupVariable name).isSome = true) :
    checker.declare name declared =
      checker.emitAll [⟨.duplicateVariable name, declared.span, checker.filePath⟩] := by
  obtain ⟨earlier, found⟩ := Option.isSome_iff_exists.mp taken
  simp only [declare, SymbolTable.insertVariable, found]
  rfl

theorem declare_accepted {checker : Checker σ} {name : String} (declared : Variable)
    (free : checker.symbols.lookupVariable name = none) :
    checker.declare name declared = { checker with
      symbols := { checker.symbols with
        innermost := checker.symbols.innermost.insert name declared } } := by
  simp only [declare, SymbolTable.insertVariable, free]

@[simp] theorem declare_hasReturn (checker : Checker σ) (name : String) (declared : Variable) :
    (checker.declare name declared).hasReturn = checker.hasReturn := by
  cases found : checker.symbols.lookupVariable name with
  | none => rw [declare_accepted declared found]
  | some earlier => rw [declare_refused declared (by simp [found]), emitAll_hasReturn]

@[simp] theorem exitScope_hasReturn (checker : Checker σ) :
    checker.exitScope.hasReturn = checker.hasReturn := rfl

structure Frame (before after : Checker σ) : Prop where
  circuits : after.symbols.circuits = before.symbols.circuits
  enclosing : after.symbols.enclosing = before.symbols.enclosing
  filePath : after.filePath = before.filePath
  parent : after.parent = before.parent

theorem Frame.refl (checker : Checker σ) : Frame checker checker := ⟨rfl, rfl, rfl, rfl⟩

theorem Frame.trans {first second third : Checker σ} (earlier : Frame first second)
    (later : Frame second third) : Frame first third :=
  ⟨later.circuits.trans earlier.circuits, later.enclosing.trans earlier.enclosing,
    later.filePath.trans earlier.filePath, later.parent.trans earlier.parent⟩

theorem frame_emitAll (checker : Checker σ) (diagnostics : List Diagnostic) :
    Frame checker (checker.emitAll diagnostics) := ⟨rfl, rfl, rfl, rfl⟩

theorem frame_declare (checker : Checker σ) (name : String) (declared : Variable) :
    Frame checker (checker.declare name declared) := by
  cases found : checker.symbols.lookupVariable name with
  | none =>
    rw [declare_accepted declared found]
    exact ⟨rfl, rfl, rfl, rfl⟩
  | some earlier =>
    rw [declare_refused declared (by simp [found])]
    exact frame_emitAll checker _

theorem Frame.exitScope_symbols {checker inside : Checker σ}
    (frame : Frame checker.enterScope inside) : inside.exitScope.symbols = checker.symbols :=
  SymbolTable.exitScope_of_enclosing frame.circuits frame.enclosing

theorem Frame.exitScope {checker inside : Checker σ} (frame : Frame checker.enterScope inside) :
    Frame checker inside.exitScope :=
  ⟨by rw [frame.exitScope_symbols], by rw [frame.exitScope_symbols], frame.filePath, frame.parent⟩

mutual

theorem frame_visitStatement (statement : Statement) (checker : Checker σ) :
    Frame checker (visitStatement statement checker) := by
  cases statement with
  | ret expression span => exact ⟨rfl, rfl, rfl, rfl⟩
  | binding binding =>
    rw [visitStatement, checkType?_eq]
    exact (frame_emitAll checker _).trans (frame_declare _ _ _)
  | assign op place value span => exact Frame.refl checker
  | conditional conditional => exact frame_visitConditional conditional checker
  | loop head body span =>
    rw [visitStatement, checkType_eq]
    apply Frame.trans (frame_emitAll checker _)
    apply Frame.exitScope
    exact (frame_declare _ _ _).trans (frame_visitBlock body _)
  | console function arguments span => exact Frame.refl checker
  | expression expression span => exact Frame.refl checker
  | block block => exact frame_visitBlock block checker

theorem frame_visitStatements (statements : List Statement) (checker : Checker σ) :
    Frame checker (visitStatements statements checker) := by
  cases statements with
  | nil => exact Frame.refl checker
  | cons first rest =>
    exact (frame_visitStatement first checker).trans (frame_visitStatements rest _)

theorem frame_visitBlock (block : Block) (checker : Checker σ) :
    Frame checker (visitBlock block checker) := by
  cases block with
  | mk statements span => exact (frame_visitStatements statements checker.enterScope).exitScope

theorem frame_visitConditional (conditional : Conditional) (checker : Checker σ) :
    Frame checker (visitConditional conditional checker) := by
  cases conditional with
  | mk condition body otherwise span =>
    exact (frame_visitBlock body checker).trans (frame_visitOtherwise otherwise _)

theorem frame_visitOtherwise (otherwise : Otherwise) (checker : Checker σ) :
    Frame checker (visitOtherwise otherwise checker) := by
  cases otherwise with
  | nothing => exact Frame.refl checker
  | block block => exact frame_visitBlock block checker
  | chain conditional => exact frame_visitConditional conditional checker

end

theorem visitBlock_symbols (block : Block) (checker : Checker σ) :
    (visitBlock block checker).symbols = checker.symbols := by
  cases block with
  | mk statements span =>
    exact (frame_visitStatements statements checker.enterScope).exitScope_symbols

mutual

theorem visitConditional_symbols (conditional : Conditional) (checker : Checker σ) :
    (visitConditional conditional checker).symbols = checker.symbols := by
  cases conditional with
  | mk condition body otherwise span =>
    rw [visitConditional, visitOtherwise_symbols otherwise, visitBlock_symbols]

theorem visitOtherwise_symbols (otherwise : Otherwise) (checker : Checker σ) :
    (visitOtherwise otherwise checker).symbols = checker.symbols := by
  cases otherwise with
  | nothing => rfl
  | block block => exact visitBlock_symbols block checker
  | chain conditional => exact visitConditional_symbols conditional checker

end

end Checker

end LeoFront

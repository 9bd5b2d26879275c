import LeoFront.Proofs.Check.Scoping
import LeoFront.Proofs.Check.TableHistory

namespace LeoFront

def Input.variable (input : Input) : Variable :=
  ⟨input.type, input.identifier.span, .input input.mode⟩

theorem SymbolTable.lookupVariable_isSome {table : SymbolTable} {name : String} :
    (table.lookupVariable name).isSome = true ↔ name ∈ table.scopes.flatMap Table.keys := by
  rw [Option.isSome_iff_ne_none, Ne, lookupVariable_eq_none]
  simp

theorem exists_sees (table : SymbolTable) (count : Nat) : ∃ earlier, Sees table earlier count := by
  let names := table.scopes.flatMap Table.keys
  -- each name is declared once more, and reaches further than what follows
  let site (name : String) : Site := ⟨⟨name, .none⟩, none, names.length + count⟩
  refine ⟨names.map site, fun gap lt name => ?_⟩
  rw [SymbolTable.lookupVariable_isSome, Taken, List.length_map]
  constructor
  · intro member
    obtain ⟨index, inside, rfl⟩ := List.mem_iff_getElem.mp member
    refine ⟨index, inside, site names[index], ?_, rfl, ?_⟩
    · rw [List.getElem?_map, List.getElem?_eq_getElem inside]
      rfl
    · dsimp only [site]
      omega
  · rintro ⟨index, inside, declared, found, rfl, -⟩
    rw [List.getElem?_map, List.getElem?_eq_getElem inside] at found
    cases found
    exact List.getElem_mem inside

namespace Checker
variable {σ : Type}

theorem visitInput_symbols (checker : Checker σ) (input : Input)
    (single : checker.symbols.enclosing = []) :
    ∃ scope, (visitInput checker input).symbols = { checker.symbols with innermost := scope } ∧
      ∀ name, scope.get? name = (checker.symbols.innermost.get? name).or
        (if input.identifier.name = name then some input.variable else none) := by
  have visible (name : String) :
      checker.symbols.lookupVariable name = checker.symbols.innermost.get? name := by
    rw [SymbolTable.lookupVariable, SymbolTable.scopes, single, List.findSome?_cons,
      List.findSome?_nil]
    cases checker.symbols.innermost.get? name <;> rfl
  rw [visitInput, checkType_eq]
  generalize typed : checker.emitAll _ = checked
  have kept : checked.symbols = checker.symbols := by rw [← typed, emitAll_symbols]
  rw [← kept] at visible ⊢
  cases found : checked.symbols.lookupVariable input.identifier.name with
  | none =>
    rw [declare_accepted _ found]
    refine ⟨_, rfl, fun name => ?_⟩
    rw [visible] at found
    rw [Table.get?_insert]
    by_cases same : input.identifier.name = name
    · rw [if_pos same, if_pos same, ← same]
      simp [found, Input.variable]
    · simp [same]
  | some earlier =>
    rw [declare_refused _ (Option.isSome_of_eq_some found)]
    refine ⟨_, rfl, fun name => ?_⟩
    rw [visible] at found
    by_cases same : input.identifier.name = name
    · rw [← same, found, Option.some_or]
    · simp [same]

theorem visitInputs_symbols (inputs : List Input) (checker : Checker σ)
    (single : checker.symbols.enclosing = []) :
    ∃ scope, (inputs.foldl visitInput checker).symbols = { checker.symbols with innermost := scope } ∧
      ∀ name, scope.get? name = (checker.symbols.innermost.get? name).or
        ((inputs.find? (·.identifier.name = name)).map Input.variable) := by
  induction inputs generalizing checker with
  | nil => exact ⟨_, rfl, fun name => (Option.or_none ..).symm⟩
  | cons input rest ih =>
    obtain ⟨first, visited, firstFound⟩ := visitInput_symbols checker input single
    obtain ⟨scope, symbols, found⟩ := ih (visitInput checker input) (by rw [visited]; exact single)
    refine ⟨scope, by rw [List.foldl_cons, symbols, visited], fun name => ?_⟩
    rw [found, visited, firstFound, Option.or_assoc, List.find?_cons]
    by_cases same : input.identifier.name = name <;> simp [same]

theorem visitBlock_handler (block : Block) (checker : Checker σ) : ∃ emitted : List Diagnostic,
    (visitBlock block checker).handler = emitted.foldl Handler.emit checker.handler := by
  obtain ⟨earlier, sees⟩ := exists_sees checker.symbols block.sites.length
  exact ⟨_, visitBlock_reported block checker earlier sees⟩

theorem visitFunction_symbols (function : FunctionDecl) (checker : Checker σ) :
    (visitFunction function checker).symbols = (function.inputs.foldl visitInput
      { checker with
        hasReturn := false
        symbols := checker.symbols.clearVariables
        parent := some function.identifier.name }).symbols := by
  unfold visitFunction
  dsimp only
  split
  · rw [visitBlock_symbols]
  · rw [report, visitBlock_symbols]

/-- A block leaves of a checker all that it found, with more diagnostics, and with the note that
something was returned if a statement in it returns, at any depth. A function leaves one scope, in
which each name of an input stands for the first input of that name. -/
theorem visitBlock_enclosed (checker : Checker σ) :
    (∀ block, ∃ emitted : List Diagnostic,
      visitBlock block checker = { checker with
        handler := emitted.foldl Handler.emit checker.handler
        hasReturn := checker.hasReturn || block.everything.any Statement.isReturn } ∧
      (visitBlock block checker).handler.errors = checker.handler.errors ++ emitted) ∧
    ∀ function, ∃ inputs : Scope,
      (visitFunction function checker).symbols.scopes = [inputs] ∧
      ∀ name, inputs.get? name =
        (function.inputs.find? (·.identifier.name = name)).map Input.variable := by
  constructor
  · intro block
    obtain ⟨emitted, handler⟩ := visitBlock_handler block checker
    have frame := frame_visitBlock block checker
    refine ⟨emitted, ?_, ?_⟩
    · rw [← handler, ← visitBlock_hasReturn, ← frame.parent, ← frame.filePath]
      conv_rhs => rw [← visitBlock_symbols block checker]
    · rw [handler, Handler.foldl_emit]
  · intro function
    obtain ⟨scope, symbols, found⟩ := visitInputs_symbols function.inputs { checker with
      hasReturn := false
      symbols := checker.symbols.clearVariables
      parent := some function.identifier.name } rfl
    refine ⟨scope, ?_, fun name => ?_⟩
    · rw [visitFunction_symbols, symbols]
      rfl
    · rw [found]
      exact Option.none_or

end Checker

end LeoFront

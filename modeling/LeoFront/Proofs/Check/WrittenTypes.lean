import LeoFront.Proofs.Check.Program
import LeoFront.Proofs.Resolution.Selection

namespace LeoFront

def Statement.variableType? : Statement → Option Ty
  | .binding definition => definition.type
  | .loop head _ _ => some head.type
  | .ret .. | .assign .. | .conditional .. | .console .. | .block .. | .expression .. => none

/-- The types written for variables: for inputs, and by the statements of the body at any depth. -/
def FunctionDecl.variableTypes (function : FunctionDecl) : List Ty :=
  function.inputs.map (·.type) ++ function.body.everything.filterMap Statement.variableType?

def FunctionDecl.types (function : FunctionDecl) : List Ty :=
  function.variableTypes ++ function.output.toList

def Circuit.types (circuit : Circuit) : List Ty := circuit.members.map (·.type)

def Program.variableTypes (program : Program) : List Ty :=
  program.functions.values.flatMap FunctionDecl.variableTypes

def Program.types (program : Program) : List Ty :=
  program.circuits.values.flatMap Circuit.types ++
    program.functions.values.flatMap FunctionDecl.types

mutual

theorem types_statement (statement : Statement) (after : Nat) :
    (statement.sites after).filterMap Site.type =
      statement.everything.filterMap Statement.variableType? := by
  cases statement with
  | binding binding =>
    simp only [Statement.sites, Statement.everything, List.filterMap, Statement.variableType?]
  | loop head body span =>
    simp only [Statement.sites, Statement.everything, List.filterMap, Statement.variableType?,
      types_block body]
  | conditional conditional =>
    simp only [Statement.sites, Statement.everything, List.filterMap, Statement.variableType?,
      types_conditional conditional]
  | block block =>
    simp only [Statement.sites, Statement.everything, List.filterMap, Statement.variableType?,
      types_block block]
  | ret expression span => simp [Statement.sites, Statement.everything, Statement.variableType?]
  | assign op place value span =>
    simp [Statement.sites, Statement.everything, Statement.variableType?]
  | console function arguments span =>
    simp [Statement.sites, Statement.everything, Statement.variableType?]
  | expression expression span =>
    simp [Statement.sites, Statement.everything, Statement.variableType?]

theorem types_statements (statements : List Statement) :
    (Statement.sitesOfAll statements).filterMap Site.type =
      (Statement.everythingOfAll statements).filterMap Statement.variableType? := by
  cases statements with
  | nil => rfl
  | cons first rest =>
    rw [Statement.sitesOfAll, Statement.everythingOfAll, List.filterMap_append,
      List.filterMap_append, types_statement first, types_statements rest]

theorem types_block (block : Block) : block.sites.filterMap Site.type =
    block.everything.filterMap Statement.variableType? := by
  cases block with
  | mk statements span => exact types_statements statements

theorem types_conditional (conditional : Conditional) :
    conditional.sites.filterMap Site.type =
      conditional.everything.filterMap Statement.variableType? := by
  cases conditional with
  | mk condition body otherwise span =>
    rw [Conditional.sites, Conditional.everything, List.filterMap_append, List.filterMap_append,
      types_block body, types_otherwise otherwise]

theorem types_otherwise (otherwise : Otherwise) : otherwise.sites.filterMap Site.type =
    otherwise.everything.filterMap Statement.variableType? := by
  cases otherwise with
  | nothing => rfl
  | block block => exact types_block block
  | chain conditional => exact types_conditional conditional

end

theorem types_inputs (body : Nat) (inputs : List Input) :
    (Input.sites body inputs).filterMap Site.type = inputs.map (·.type) := by
  induction inputs with
  | nil => rfl
  | cons input rest ih => simp only [Input.sites, List.filterMap, ih, List.map_cons]

theorem FunctionDecl.types_sites (function : FunctionDecl) :
    function.sites.filterMap Site.type = function.variableTypes := by
  rw [FunctionDecl.sites, List.filterMap_append, types_inputs, types_block, variableTypes]

namespace Program
variable {σ : Type}

theorem writes_iff (program : Program) (identifier : Identifier) :
    program.Writes identifier ↔ .named identifier ∈ program.variableTypes := by
  simp only [Writes, variableTypes, List.mem_flatMap, ← FunctionDecl.types_sites,
    List.mem_filterMap]

theorem typecheck_unknown {program : Program} {known : List String} {filePath : Option String}
    {diagnostic : Diagnostic} (reported : diagnostic ∈ program.typecheck known filePath)
    (unknown : diagnostic.fault.code = "UnknownSymbol") :
    ∃ name span, diagnostic = ⟨.unknownSymbol "circuit" name, span, filePath⟩ := by
  rw [typecheck_eq] at reported
  obtain ⟨_, -, _, hasFault, rfl⟩ | ⟨_, -, ⟨_, -, reports⟩ | rfl⟩ := of_mem_diagnostics reported
  · cases hasFault <;> simp [Fault.code] at unknown
  · cases reports with
    | unknown => exact ⟨_, _, rfl⟩
    | taken => simp [Fault.code] at unknown
  · simp [Fault.code] at unknown

/-- No unknown symbol is reported if and only if every circuit that is named as the type of a
variable is a circuit of the program or a known one: of an input, of a typed definition or of a loop
variable, at any depth. -/
theorem typecheckWith_unreported (program : Program) (known : List String)
    (filePath : Option String) (handler : Handler σ) :
    (∀ diagnostic ∈ (program.typecheckWith known filePath handler).1,
      diagnostic.fault.code ≠ "UnknownSymbol") ↔
    ∀ identifier, .named identifier ∈ program.variableTypes →
      identifier.name ∈ program.circuits.keys ∨ identifier.name ∈ known := by
  rw [typecheckWith_eq, ← typecheck_eq]
  constructor
  · intro silent identifier written
    refine Classical.byContradiction fun absent => ?_
    have reported := (program.mem_typecheck_unknownSymbol known filePath identifier.name
      identifier.span).mpr ⟨(program.writes_iff identifier).mpr written, absent⟩
    exact silent _ reported rfl
  · intro known_all diagnostic reported unknown
    obtain ⟨name, span, rfl⟩ := typecheck_unknown reported unknown
    obtain ⟨written, absent⟩ :=
      (program.mem_typecheck_unknownSymbol known filePath name span).mp reported
    exact absent (known_all ⟨name, span⟩ ((program.writes_iff _).mp written))

def danglingTypes : Program :=
  .ofText "circuit box \x7b inside: gone \x7d function f() -> lost \x7b return 1u8; \x7d" "main"

/-- Nothing is reported of a program that names unknown circuits for a member and an output. -/
theorem typecheck_passes_members :
    ¬ ∀ (program : Program) (known : List String) (filePath : Option String),
      (∀ diagnostic ∈ program.typecheck known filePath,
        diagnostic.fault.code ≠ "UnknownSymbol") →
      ∀ identifier, .named identifier ∈ program.types →
        identifier.name ∈ program.circuits.keys ∨ identifier.name ∈ known := by
  intro reports
  have silent : danglingTypes.typecheck [] none = [] := by decide +kernel
  have inside : .named ⟨"gone", ⟨⟨1, 23, 22⟩, ⟨1, 27, 26⟩⟩⟩ ∈ danglingTypes.types := by
    decide +kernel
  have unknown : "gone" ∉ danglingTypes.circuits.keys := by decide +kernel
  rcases reports danglingTypes [] none (by simp [silent]) _ inside with known | known
  · exact unknown known
  · cases known

end Program

end LeoFront

import LeoFront.Proofs.Check.Program
import LeoFront.Proofs.Lexical.Usage
import LeoFront.Proofs.Program.Declarations
import LeoFront.Proofs.Spacing.Slices

namespace LeoFront

def Fault.aboutName? : Fault → Option String
  | duplicateVariable name | unknownSymbol _ name => some name
  | functionHasNoReturn _ | duplicateCircuitMember _ | duplicateRecordVariable _
  | requiredRecordVariable .. | recordVarWrongType .. => none

/-- A fault can be one of a declaration: it quotes the function or circuit declared, or it is a fault
of records and the declaration is one. -/
def Fault.Concerns : Fault → Declaration → Prop
  | functionHasNoReturn name, .function function => name = function.identifier.name
  | duplicateCircuitMember name, .circuit circuit =>
    name = circuit.identifier.name ∧ circuit.isRecord = false
  | duplicateRecordVariable name, .circuit circuit =>
    name = circuit.identifier.name ∧ circuit.isRecord = true
  | requiredRecordVariable .., .circuit circuit | recordVarWrongType .., .circuit circuit =>
    circuit.isRecord = true
  | _, _ => False

/-- A diagnostic about a name points at this name, standing in a source as a word. Any other points at
a declaration that it concerns, from its keyword to its end. -/
def Diagnostic.Points (source : List Char) (declarations : List Declaration)
    (diagnostic : Diagnostic) : Prop :=
  match diagnostic.fault.aboutName? with
  | some name => (⟨name, diagnostic.span⟩ : Identifier).Whole source
  | none => ∃ declaration ∈ declarations, diagnostic.fault.Concerns declaration ∧
    diagnostic.span = declaration.span ∧ declaration.Fills source

variable {filePath : Option String} {known : String → Bool} {diagnostic : Diagnostic}

def Diagnostic.Of (declaration : Declaration) (diagnostic : Diagnostic) : Prop :=
  diagnostic.fault.aboutName? = none ∧ diagnostic.fault.Concerns declaration ∧
    diagnostic.span = declaration.span

theorem Circuit.HasFault.of {circuit : Circuit} {fault : Fault} (hasFault : circuit.HasFault fault) :
    Diagnostic.Of (.circuit circuit) ⟨fault, circuit.span, filePath⟩ := by
  cases hasFault with
  | circuitMember kind => exact ⟨rfl, ⟨rfl, kind⟩, rfl⟩
  | recordVariable kind => exact ⟨rfl, ⟨rfl, kind⟩, rfl⟩
  | required kind => exact ⟨rfl, kind, rfl⟩
  | wrongType kind => exact ⟨rfl, kind, rfl⟩

theorem Site.Reports.name {site : Site} (reports : site.Reports known filePath diagnostic) :
    ∃ identifier ∈ site.names,
      diagnostic.fault.aboutName? = some identifier.name ∧ diagnostic.span = identifier.span := by
  cases reports with
  | unknown written =>
    refine ⟨_, List.mem_cons_of_mem _ ?_, rfl, rfl⟩
    rw [written]
    exact List.mem_singleton_self _
  | taken => exact ⟨site.name, List.mem_cons_self, rfl, rfl⟩

namespace Program

theorem diagnostics_cases {program : Program}
    (reported : diagnostic ∈ program.diagnostics known filePath) :
    ∃ declaration ∈ program.declarations, diagnostic.Of declaration ∨
      ∃ identifier ∈ declaration.names, diagnostic.fault.aboutName? = some identifier.name ∧
        diagnostic.span = identifier.span := by
  obtain ⟨circuit, member, fault, hasFault, rfl⟩ | ⟨function, member, reported⟩ :=
    of_mem_diagnostics reported
  · exact ⟨.circuit circuit, List.mem_append_left _ (List.mem_map_of_mem member), .inl hasFault.of⟩
  refine ⟨.function function, List.mem_append_right _ (List.mem_map_of_mem member), ?_⟩
  obtain ⟨site, among, reports⟩ | rfl := reported
  · obtain ⟨identifier, named, found⟩ := reports.name
    exact .inr ⟨identifier, function.sites_named site among named, found⟩
  · exact .inl ⟨rfl, rfl, rfl⟩

end Program

/-- Every diagnostic of a program points at the text that it is about, if the source of the program is
accepted. -/
theorem File.diagnostics_point {σ : Type} {text : String} {sourceName : Option String} {file : File}
    (parsed : File.parse text sourceName = .ok file) (programName : String) (known : List String)
    (filePath : Option String) (handler : Handler σ) :
    ∀ diagnostic ∈ ((Program.ofFile file programName).typecheckWith known filePath handler).1,
      diagnostic.Points text.toList file.declarations := by
  intro diagnostic reported
  rw [Program.typecheckWith_eq] at reported
  obtain ⟨declaration, member, about⟩ := Program.diagnostics_cases reported
  have among := Program.declarations_ofFile file programName member
  unfold Diagnostic.Points
  rcases about with ⟨whole, concerns, span⟩ | ⟨identifier, named, about, span⟩
  · rw [whole]
    exact ⟨declaration, among, concerns, span, File.parse_declaration parsed declaration among⟩
  · rw [about, span]
    refine (File.parse_sound parsed).2 identifier (List.mem_append_right _ ?_)
    exact List.mem_flatMap.mpr ⟨declaration, among, named⟩

def faultyDeclarations : String :=
  " circuit c \x7b a: u8, a: u8 \x7d // 😀\nrecord r \x7b owner: u8 \x7d " ++
    "function f(x: gone) \x7b let x = x; \x7d"

theorem faultyDeclarations_points :
    ∃ file, File.parse faultyDeclarations none = .ok file ∧
      (((Program.ofFile file "main").typecheckWith [] none .unobserved).1.map fun diagnostic =>
        (diagnostic.fault.code, diagnostic.span.start.offset, diagnostic.span.stop.offset)) =
          [("DuplicateCircuitMember", 1, 27), ("RecordVarWrongType", 34, 56),
            ("RequiredRecordVariable", 34, 56), ("UnknownSymbol", 71, 75),
            ("DuplicateVariable", 83, 84), ("FunctionHasNoReturn", 57, 91)] ∧
      ∀ diagnostic ∈ ((Program.ofFile file "main").typecheckWith [] none .unobserved).1,
        diagnostic.Points faultyDeclarations.toList file.declarations := by
  have reports : (File.parse faultyDeclarations none).toOption.map (fun file =>
      ((Program.ofFile file "main").typecheckWith [] none .unobserved).1.map fun diagnostic =>
        (diagnostic.fault.code, diagnostic.span.start.offset, diagnostic.span.stop.offset)) =
          some [("DuplicateCircuitMember", 1, 27), ("RecordVarWrongType", 34, 56),
            ("RequiredRecordVariable", 34, 56), ("UnknownSymbol", 71, 75),
            ("DuplicateVariable", 83, 84), ("FunctionHasNoReturn", 57, 91)] := by
    decide +kernel
  obtain ⟨file, parsed, reports⟩ := exists_of_view reports
  exact ⟨file, parsed, reports, File.diagnostics_point parsed "main" [] none _⟩

end LeoFront

import LeoFront.Program.Definition
import LeoFront.Proofs.Program.Tables

namespace LeoFront

def Declaration.name : Declaration → String
  | .circuit declared => declared.identifier.name
  | .function declared => declared.identifier.name

def Declaration.circuit? : Declaration → Option Circuit
  | .circuit declared => some declared
  | .function _ => none

def Declaration.function? : Declaration → Option FunctionDecl
  | .circuit _ => none
  | .function declared => some declared

namespace File

def Declares (file : File) (name : String) : Prop :=
  ∃ declaration ∈ file.declarations, declaration.name = name

def circuits (file : File) : List Circuit := file.declarations.filterMap Declaration.circuit?

def functions (file : File) : List FunctionDecl :=
  file.declarations.filterMap Declaration.function?

theorem mem_circuits {file : File} {circuit : Circuit} :
    circuit ∈ file.circuits ↔ .circuit circuit ∈ file.declarations := by
  rw [circuits, List.mem_filterMap]
  constructor
  · rintro ⟨_ | _, member, same⟩ <;> cases same
    exact member
  · exact fun member => ⟨_, member, rfl⟩

theorem mem_functions {file : File} {function : FunctionDecl} :
    function ∈ file.functions ↔ .function function ∈ file.declarations := by
  rw [functions, List.mem_filterMap]
  constructor
  · rintro ⟨_ | _, member, same⟩ <;> cases same
    exact member
  · exact fun member => ⟨_, member, rfl⟩

end File

theorem qualify_injective {owner first second : String}
    (same : qualify owner first = qualify owner second) : first = second := by
  have characters := congrArg String.toList same
  simp only [qualify, String.toList_append, List.append_cancel_left_eq] at characters
  exact String.toList_inj.mp characters

namespace Program

theorem foldl_declare (declarations : List Declaration) (program : Program) :
    declarations.foldl declare program =
      { program with
        circuits := program.circuits.write ((declarations.filterMap Declaration.circuit?).map
          fun circuit => (circuit.identifier.name, circuit))
        functions := program.functions.write ((declarations.filterMap Declaration.function?).map
          fun function => (function.identifier.name, function)) } := by
  induction declarations generalizing program with
  | nil => rfl
  | cons first rest ih =>
    rw [List.foldl_cons, ih]
    cases first <;> rfl

theorem ofFile_eq (file : File) (name : String) :
    ofFile file name = ⟨name, file.imports, .collect (·.identifier.name) file.circuits,
      .collect (·.identifier.name) file.functions⟩ :=
  foldl_declare file.declarations _

def Declares (program : Program) (name : String) : Prop :=
  name ∈ program.circuits.keys ∨ name ∈ program.functions.keys

theorem declares_ofFile (file : File) (programName name : String) :
    (ofFile file programName).Declares name ↔ file.Declares name := by
  simp only [Declares, ofFile_eq, Table.keys_collect, List.mem_eraseDups, List.mem_map,
    File.mem_circuits, File.mem_functions]
  constructor
  · rintro (⟨circuit, member, same⟩ | ⟨function, member, same⟩)
    · exact ⟨_, member, same⟩
    · exact ⟨_, member, same⟩
  · rintro ⟨circuit | function, member, same⟩
    · exact .inl ⟨circuit, member, same⟩
    · exact .inr ⟨function, member, same⟩

def declarations (program : Program) : List Declaration :=
  program.circuits.values.map .circuit ++ program.functions.values.map .function

theorem declarations_ofFile (file : File) (name : String) :
    (ofFile file name).declarations ⊆ file.declarations := by
  rw [ofFile_eq]
  intro declaration member
  rcases List.mem_append.mp member with among | among
  · obtain ⟨circuit, collected, rfl⟩ := List.mem_map.mp among
    exact File.mem_circuits.mp (Table.mem_of_mem_values_collect collected)
  · obtain ⟨function, collected, rfl⟩ := List.mem_map.mp among
    exact File.mem_functions.mp (Table.mem_of_mem_values_collect collected)

theorem of_mem_definitions {program : Program} {key : String} {definition : Definition}
    (member : (key, definition) ∈ program.definitions) :
    ∃ name, program.Declares name ∧ key = qualify program.name name ∧
      ∀ localName ∈ definition.circuitName?, localName = name := by
  rcases List.mem_append.mp member with circuit | function
  · obtain ⟨entry, declared, same⟩ := List.mem_map.mp circuit
    cases same
    exact ⟨entry.1, .inl (List.mem_map_of_mem declared), rfl, by simp [Definition.circuitName?]⟩
  · obtain ⟨entry, declared, same⟩ := List.mem_map.mp function
    cases same
    exact ⟨entry.1, .inr (List.mem_map_of_mem declared), rfl, by simp [Definition.circuitName?]⟩

theorem mem_definitions {program : Program} {name : String} (declares : program.Declares name) :
    ∃ definition, (qualify program.name name, definition) ∈ program.definitions := by
  rcases declares with circuit | function
  · obtain ⟨entry, member, rfl⟩ := List.mem_map.mp circuit
    exact ⟨_, List.mem_append_left _ (List.mem_map_of_mem member)⟩
  · obtain ⟨entry, member, rfl⟩ := List.mem_map.mp function
    exact ⟨_, List.mem_append_right _ (List.mem_map_of_mem member)⟩

theorem circuitName_definition? {program : Program} {name localName : String}
    {definition : Definition} (declared : program.definition? name localName = some definition) :
    ∀ circuitName ∈ definition.circuitName?, circuitName = localName := by
  unfold definition? at declared
  split at declared
  · cases declared
    simp [Definition.circuitName?]
  · split at declared <;> cases declared
    simp [Definition.circuitName?]

def install (program : Program) (store : DefinitionStore) : DefinitionStore :=
  program.definitions.foldl (fun store entry => store.insert entry.1 entry.2) store

theorem get?_install_table {α : Type} (table : NameTable α) (wrap : String → α → Definition)
    (owner name : String) (store : DefinitionStore) :
    ((table.entries.map fun entry => (qualify owner entry.1, wrap entry.1 entry.2)).foldl
      (fun store entry => store.insert entry.1 entry.2) store).get? (qualify owner name) =
        ((table.get? name).map (wrap name)).or (store.get? (qualify owner name)) := by
  have looked (entries : List (String × α)) :
      Table.lookup (qualify owner name)
        (entries.map fun entry => (qualify owner entry.1, wrap entry.1 entry.2)) =
          (Table.lookup name entries).map (wrap name) := by
    induction entries with
    | nil => rfl
    | cons entry rest ih =>
      by_cases same : entry.1 = name
      · simp [Table.lookup, same]
      · have other : qualify owner entry.1 ≠ qualify owner name := same ∘ qualify_injective
        simp [Table.lookup, same, other, ih]
  rw [Table.get?_foldl_insert, looked]
  · rfl
  · have distinct := table.nodup.map (f := qualify owner) fun _ _ => qualify_injective
    rw [List.map_map] at distinct ⊢
    exact distinct

theorem get?_install (program : Program) (name : String) (store : DefinitionStore) :
    (program.install store).get? (qualify program.name name) =
      ((program.functions.get? name).map (.function none)).or
        (((program.circuits.get? name).map (.circuit name)).or
          (store.get? (qualify program.name name))) := by
  rw [install, definitions, List.foldl_append,
    get?_install_table program.functions (fun _ function => .function none function),
    get?_install_table program.circuits fun name circuit => .circuit name circuit]

end Program

end LeoFront

import LeoFront.Proofs.Places.Files
import LeoFront.Proofs.Program.Declarations
import LeoFront.Proofs.RoundTrip.Acceptance
import LeoFront.Proofs.Spacing.Slices

namespace LeoFront

/-- A table has some values under their names: a name stands where it first comes, with the value that
comes last. -/
structure Table.Holds {κ α : Type} [DecidableEq κ] (table : Table κ α) (key : α → κ)
    (values : List α) : Prop where
  keys : table.keys = (values.map key).eraseDups
  last : ∀ name, table.get? name = (values.filter (key · = name)).getLast?

theorem Table.holds_collect {κ α : Type} [DecidableEq κ] (key : α → κ) (values : List α) :
    (collect key values).Holds key values :=
  ⟨keys_collect key values, get?_collect key values⟩

structure File.Ordered (file : File) : Prop where
  imports : file.imports.Pairwise fun first second =>
    first.span.stop.offset ≤ second.span.start.offset
  declarations : file.declarations.Pairwise fun first second =>
    first.span.stop.offset ≤ second.span.start.offset

theorem Import.span_of_item {item : Grammar.Item} {statement : Import}
    (same : item.statement? = some statement) : item.outline.span = statement.span := by
  cases item with
  | statement imported =>
    cases same
    rfl
  | declaration declared => cases same

theorem Declaration.span_of_item {item : Grammar.Item} {declaration : Declaration}
    (same : item.declaration? = some declaration) : item.outline.span = declaration.span := by
  cases item with
  | statement imported => cases same
  | declaration declared =>
    cases same
    cases declaration <;> rfl

theorem File.parse_ordered {text : String} {sourceName : Option String} {file : File}
    (parsed : File.parse text sourceName = .ok file) : file.Ordered := by
  obtain ⟨after, read, -⟩ := File.parseChars_ok_iff.mp parsed
  obtain ⟨-, items, imports, declarations, laid⟩ :=
    Grammar.places_file (.ofSource text.toList) read
  have apart := List.pairwise_map.mp laid.pairwise
  constructor
  · rw [← imports]
    refine apart.filterMap _ fun _ _ before statement same statement' same' => ?_
    rw [Import.span_of_item same, Import.span_of_item same'] at before
    exact before
  · rw [← declarations]
    refine apart.filterMap _ fun _ _ before declaration same declaration' same' => ?_
    rw [Declaration.span_of_item same, Declaration.span_of_item same'] at before
    exact before

namespace Program

def update (program other : Program) : Program :=
  { program with
    imports := program.imports ++ other.imports
    circuits := program.circuits.update other.circuits
    functions := program.functions.update other.functions }

/-- The imports of a program are those of its file, and each of its tables holds the declarations of one
kind, whatever is declared of the other kind. What stands behind a file updates its program. In a file
that was read all of this is in source order. -/
theorem ofFile_holds (file : File) (name : String) :
    (ofFile file name).imports = file.imports ∧
    (ofFile file name).circuits.Holds (·.identifier.name) file.circuits ∧
    (ofFile file name).functions.Holds (·.identifier.name) file.functions ∧
    (∀ other span, ofFile ⟨file.imports ++ other.imports,
      file.declarations ++ other.declarations, span⟩ name =
        (ofFile file name).update (ofFile other name)) ∧
    ∀ text sourceName, File.parse text sourceName = .ok file → file.Ordered := by
  refine ⟨?_, ?_, ?_, fun other span => ?_, fun text sourceName => File.parse_ordered⟩
  · rw [ofFile_eq]
  · rw [ofFile_eq]
    exact Table.holds_collect _ _
  · rw [ofFile_eq]
    exact Table.holds_collect _ _
  · simp only [ofFile_eq, update, File.circuits, File.functions, List.filterMap_append,
      Table.collect_append]

def repeating : String :=
  "circuit b \x7b\x7d function a() \x7b\x7d import c.*; circuit a \x7b\x7d record b \x7b\x7d"

theorem repeating_holds : ∃ file, File.parse repeating none = .ok file ∧ file.Ordered ∧
    (ofFile file "main").circuits.keys = ["b", "a"] ∧
    ((ofFile file "main").circuits.get? "b").map Circuit.isRecord = some true := by
  have named : (File.parse repeating none).toOption.map (fun file =>
      (file.circuits.map (·.identifier.name),
        (file.circuits.filter (·.identifier.name = "b")).getLast?.map Circuit.isRecord)) =
      some (["b", "a", "b"], some true) := by
    decide +kernel
  obtain ⟨file, parsed, named⟩ := exists_of_view named
  obtain ⟨-, circuits, -, -, ordered⟩ := ofFile_holds file "main"
  obtain ⟨names, record⟩ := Prod.mk.inj named
  refine ⟨file, parsed, ordered _ _ parsed, ?_, ?_⟩
  · rw [circuits.keys, names]
    rfl
  · rw [circuits.last]
    exact record

end Program

end LeoFront

import LeoFront.Proofs.Program.Declarations
import LeoFront.Resolution.Resolver

namespace LeoFront

namespace Resolver

def rootOf (resolver : Resolver) (span : Span) : Except Failure String :=
  match resolver.root, resolver.workspace.cwdText with
  | some root, _ => .ok root
  | none, .ok cwd => .ok cwd
  | none, .error error => .error (.badImport ⟨.directory error.message none, some span⟩)

def candidatesOf (resolver : Resolver) (directory : String) (name : Identifier) :
    Except Failure Candidates :=
  let source := Path.join directory sourceDirectory
  match resolver.workspace.entries source with
  | .error cause => .error (.badImport ⟨.directory cause.message (some source), some name.span⟩)
  | .ok entries =>
    match entries.filter (·.packageName = name.name) with
    | [] => .error (.badImport ⟨.unknownPackage name.name, some name.span⟩)
    | first :: others => .ok ⟨first, others⟩

def isOfKind (resolver : Resolver) (wantDirectory : Bool) (entry : Entry) : Bool :=
  match resolver.workspace.isDirectory entry.rawPath with
  | .ok isDirectory => isDirectory = wantDirectory
  | .error _ => false

theorem isOfKind_iff {resolver : Resolver} {wantDirectory : Bool} {entry : Entry} :
    resolver.isOfKind wantDirectory entry = true ↔
      resolver.workspace.isDirectory entry.rawPath = .ok wantDirectory := by
  unfold isOfKind
  cases resolver.workspace.isDirectory entry.rawPath <;> simp

/-- The only entry, or the first of the wanted kind, or else the first. -/
def selected (resolver : Resolver) (candidates : Candidates) (wantDirectory : Bool) : Entry :=
  match candidates.others with
  | [] => candidates.first
  | others =>
    ((candidates.first :: others).find? (resolver.isOfKind wantDirectory)).getD candidates.first

inductive Leaf (resolver : Resolver) : Candidates → Access → Entry → Span → Prop
  | star {candidates : Candidates} {span : Span} :
      Leaf resolver candidates (.star span) (resolver.selected candidates false) span
  | symbol {candidates : Candidates} {symbol : ImportSymbol} :
      Leaf resolver candidates (.symbol symbol) (resolver.selected candidates false) symbol.span
  | subPackage {candidates inside : Candidates} {name : Identifier} {access : Access}
      {whole span : Span} {entry : Entry}
      (found : resolver.candidatesOf (resolver.selected candidates true).path name = .ok inside)
      (leaf : Leaf resolver inside access entry span) :
      Leaf resolver candidates (.subPackage name access whole) entry span
  | multiple {candidates : Candidates} {accesses : List Access} {access : Access}
      {whole span : Span} {entry : Entry} (member : access ∈ accesses)
      (leaf : Leaf resolver candidates access entry span) :
      Leaf resolver candidates (.multiple accesses whole) entry span

def Imported (resolver : Resolver) (statements : List Import) (entry : Entry) (span : Span) : Prop :=
  ∃ statement ∈ statements, ∃ root candidates, resolver.rootOf statement.span = .ok root ∧
    resolver.candidatesOf root statement.package.name = .ok candidates ∧
    resolver.Leaf candidates statement.package.access entry span

end Resolver

def Workspace.loadOf (workspace : Workspace) (entry : Entry) (span : Span) :
    Except Failure Program :=
  match workspace.isDirectory entry.rawPath, entry.fileName with
  | .error cause, _ => .error (.badImport ⟨.directory cause.message (some entry.path), some span⟩)
  | .ok _, none => .error (.badImport ⟨.undecodableName, some span⟩)
  | .ok true, some name => .error (.badImport ⟨.directoryAsFile name, some span⟩)
  | .ok false, some name =>
    match workspace.parseFile entry.path with
    | .error error => .error (.badSource error)
    | .ok file => .ok (.ofFile file name)

abbrev Failure.ofCycle (chain : List String) (span : Option Span) : Failure :=
  .badImport ⟨.cycle chain, span⟩

/-- The failures that only going into a file can bring about. -/
def Failure.OfDescent (failure : Failure) : Prop :=
  (∃ chain place, failure = .ofCycle chain place) ∨ failure = .tooDeep

namespace Resolver
variable {resolver : Resolver} {failure : Failure}

theorem rootOf_not_ofDescent {span : Span} (failed : resolver.rootOf span = .error failure) :
    ¬ failure.OfDescent := by
  unfold rootOf at failed
  split at failed <;> cases failed
  simp [Failure.OfDescent]

theorem candidatesOf_not_ofDescent {directory : String} {name : Identifier}
    (failed : resolver.candidatesOf directory name = .error failure) : ¬ failure.OfDescent := by
  unfold candidatesOf at failed
  dsimp only at failed
  split at failed
  · cases failed
    simp [Failure.OfDescent]
  · split at failed <;> cases failed
    simp [Failure.OfDescent]

end Resolver

theorem Workspace.loadOf_not_ofDescent {workspace : Workspace} {entry : Entry} {span : Span}
    {failure : Failure} (failed : workspace.loadOf entry span = .error failure) :
    ¬ failure.OfDescent := by
  unfold Workspace.loadOf at failed
  split at failed
  · cases failed
    simp [Failure.OfDescent]
  · cases failed
    simp [Failure.OfDescent]
  · cases failed
    simp [Failure.OfDescent]
  · split at failed <;> cases failed
    simp [Failure.OfDescent]

theorem Program.imports_ofFile (file : File) (name : String) :
    (Program.ofFile file name).imports = file.imports := by
  rw [ofFile_eq]

theorem Workspace.loadOf_ok {workspace : Workspace} {entry : Entry} {span : Span}
    {program : Program} (loaded : workspace.loadOf entry span = .ok program) :
    ∃ file name, workspace.parseFile entry.path = .ok file ∧ program = .ofFile file name := by
  unfold Workspace.loadOf at loaded
  split at loaded
  · cases loaded
  · cases loaded
  · cases loaded
  · rename_i name _ _
    cases parsed : workspace.parseFile entry.path with
    | error error =>
      rw [parsed] at loaded
      cases loaded
    | ok file =>
      rw [parsed] at loaded
      cases loaded
      exact ⟨file, name, rfl, rfl⟩

theorem Workspace.loadOf_span {workspace : Workspace} {entry : Entry} {span other : Span}
    {program : Program} (loaded : workspace.loadOf entry span = .ok program) :
    workspace.loadOf entry other = .ok program := by
  unfold Workspace.loadOf at loaded ⊢
  split at loaded
  · cases loaded
  · cases loaded
  · cases loaded
  · exact loaded

def NodePath.ofNames (names : List String) : NodePath := names.map Text.Utf8.encode

def Workspace.ofNodes (nodes : List (NodePath × Node)) : Workspace :=
  ⟨nodes.foldl (fun tree node => tree.insert node.1 node.2) .empty, [], false⟩

def Resolver.ofSources (sources : List (String × String)) : Resolver :=
  let directory := Text.Utf8.encode "src"
  let tree : Tree := sources.foldl
    (fun tree source =>
      tree.insert [directory, Text.Utf8.encode source.1] (.file (Text.Utf8.encode source.2)))
    (Table.empty.insert [directory] .directory)
  ⟨⟨tree, [], false⟩, some "/"⟩

def Program.ofText (text name : String) : Program :=
  match File.parse text none with
  | .ok file => .ofFile file name
  | .error _ => .ofFile ⟨[], [], .none⟩ name

end LeoFront

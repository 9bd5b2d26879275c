import LeoFront.Proofs.Places.Outline
import LeoFront.Proofs.Resolution.Installation
import LeoFront.Proofs.Resolution.SharedNames
import LeoFront.Report.Structured

namespace LeoFront

mutual

def Outline.spans : Outline → List Span
  | .node span _ inside => span :: Outline.spansEach inside

def Outline.spansEach : List Outline → List Span
  | [] => []
  | first :: rest => first.spans ++ Outline.spansEach rest

end

namespace Outline

theorem mem_spansEach {outlines : List Outline} {outline : Outline} {span : Span}
    (member : outline ∈ outlines) (within : span ∈ outline.spans) :
    span ∈ spansEach outlines := by
  induction outlines with
  | nil => cases member
  | cons first rest ih =>
    rw [spansEach]
    rcases List.mem_cons.mp member with rfl | among
    · exact List.mem_append_left _ within
    · exact List.mem_append_right _ (ih among)

theorem mem_spans_of_inside {span whole : Span} {written : Option (List Char)}
    {inside : List Outline} {outline : Outline} (member : outline ∈ inside)
    (within : span ∈ outline.spans) : span ∈ (node whole written inside).spans := by
  rw [spans]
  exact List.mem_cons_of_mem _ (mem_spansEach member within)

end Outline

def File.spans (file : File) : List Span :=
  file.span :: Outline.spansEach (file.imports.map Import.outline ++
    file.declarations.map fun declared => (Grammar.Item.declaration declared).outline)

theorem Identifier.span_mem_spans (identifier : Identifier) :
    identifier.span ∈ identifier.outline.spans := List.mem_cons_self

theorem Access.spans_of_mem {accesses : List Access} {access : Access} {span whole : Span}
    (member : access ∈ accesses) (within : span ∈ access.outline.spans) :
    span ∈ (Access.multiple accesses whole).outline.spans := by
  refine Outline.mem_spans_of_inside ?_ within
  rw [Access.outlineEach_eq_flatMap]
  exact List.mem_flatMap.mpr ⟨access, member, List.mem_singleton_self _⟩

theorem Import.spans_of_access {statement : Import} {span : Span}
    (within : span ∈ statement.package.access.outline.spans) :
    span ∈ statement.outline.spans :=
  Outline.mem_spans_of_inside (List.mem_singleton_self _)
    (Outline.mem_spans_of_inside (List.mem_cons_of_mem _ (List.mem_singleton_self _)) within)

namespace Resolver
open Resolution Report
variable {resolver : Resolver} {scope : String} {statements : List Import} {candidates : Candidates}
  {access : Access} {entry : Entry} {taking : Taking} {span : Span} {directory : String}
  {name : Identifier} {error : ImportError} {fault : ImportFault} {active : List String}

theorem Seeks.written (seeks : resolver.Seeks candidates access directory name) :
    name.span ∈ access.outline.spans := by
  induction seeks with
  | here => exact Outline.mem_spans_of_inside List.mem_cons_self (Identifier.span_mem_spans _)
  | subPackage found seeks ih =>
    exact Outline.mem_spans_of_inside (List.mem_cons_of_mem _ (List.mem_singleton_self _)) ih
  | multiple member seeks ih => exact Access.spans_of_mem member ih

theorem Leaf.written (leaf : resolver.Leaf candidates access entry span) :
    span ∈ access.outline.spans := by
  induction leaf with
  | star => exact List.mem_cons_self
  | symbol => exact List.mem_cons_self
  | subPackage found leaf ih =>
    exact Outline.mem_spans_of_inside (List.mem_cons_of_mem _ (List.mem_singleton_self _)) ih
  | multiple member leaf ih => exact Access.spans_of_mem member ih

theorem ImportSeeks.written (seeks : resolver.ImportSeeks statements directory name) :
    ∃ statement ∈ statements, name.span ∈ statement.outline.spans := by
  obtain ⟨statement, member, root, -, ⟨-, rfl⟩ | ⟨candidates, -, seeks⟩⟩ := seeks
  · exact ⟨statement, member, Outline.mem_spans_of_inside (List.mem_singleton_self _)
      (Outline.mem_spans_of_inside List.mem_cons_self (Identifier.span_mem_spans _))⟩
  · exact ⟨statement, member, Import.spans_of_access seeks.written⟩

theorem Imported.written (imported : resolver.Imported statements entry span) :
    ∃ statement ∈ statements, span ∈ statement.outline.spans := by
  obtain ⟨statement, member, root, candidates, -, -, leaf⟩ := imported
  exact ⟨statement, member, Import.spans_of_access leaf.written⟩

/-- Some import statements have a fault at a span: at a statement if there is no package root, at the
name of a package if the package is not there, and at a leaf if nothing can be taken there. -/
inductive FaultAt (resolver : Resolver) (scope : String) (statements : List Import) :
    ImportFault → Span → Prop
  | root {statement : Import} {cause : OsError} (member : statement ∈ statements)
      (unset : resolver.root = none) (gone : resolver.workspace.cwdText = .error cause) :
      FaultAt resolver scope statements (.directory cause.message none) statement.span
  | listing {directory : String} {name : Identifier} {cause : OsError}
      (seeks : resolver.ImportSeeks statements directory name)
      (unlisted : resolver.workspace.entries (Path.join directory sourceDirectory) =
        .error cause) :
      FaultAt resolver scope statements
        (.directory cause.message (some (Path.join directory sourceDirectory))) name.span
  | package {directory : String} {name : Identifier} {entries : List Entry}
      (seeks : resolver.ImportSeeks statements directory name)
      (listed : resolver.workspace.entries (Path.join directory sourceDirectory) = .ok entries)
      (absent : ∀ entry ∈ entries, entry.packageName ≠ name.name) :
      FaultAt resolver scope statements (.unknownPackage name.name) name.span
  | entry {entry : Entry} {span : Span} {cause : OsError}
      (imported : resolver.Imported statements entry span)
      (unseen : resolver.workspace.isDirectory entry.rawPath = .error cause) :
      FaultAt resolver scope statements (.directory cause.message (some entry.path)) span
  | undecodable {entry : Entry} {span : Span} (imported : resolver.Imported statements entry span)
      (unnamed : entry.fileName = none) :
      FaultAt resolver scope statements .undecodableName span
  | directoryAsFile {entry : Entry} {span : Span} {name : String}
      (imported : resolver.Imported statements entry span)
      (directory : resolver.workspace.isDirectory entry.rawPath = .ok true)
      (named : entry.fileName = some name) :
      FaultAt resolver scope statements (.directoryAsFile name) span
  | symbol {entry : Entry} {wanted : ImportSymbol} {file : File}
      (takes : resolver.ImportTakes statements entry (.symbol wanted))
      (parsed : resolver.workspace.parseFile entry.path = .ok file)
      (undeclared : ¬ file.Declares wanted.symbol.name) :
      FaultAt resolver scope statements
        (.unknownSymbol wanted.symbol.name scope entry.path) wanted.span
  | cycle {entry : Entry} {span : Span} {path : String} {active : List String}
      (imported : resolver.Imported statements entry span)
      (resolved : resolver.workspace.resolve entry.path = .ok path) (again : path ∈ active) :
      FaultAt resolver scope statements (.cycle (cycleThrough active path)) span

theorem imported_of_symbol {wanted : ImportSymbol}
    (takes : resolver.ImportTakes statements entry (.symbol wanted)) :
    resolver.Imported statements entry wanted.span :=
  imported_iff.mpr ⟨_, rfl, takes⟩

theorem FaultAt.written (faultAt : resolver.FaultAt scope statements fault span) :
    ∃ statement ∈ statements, span ∈ statement.outline.spans := by
  cases faultAt with
  | root member => exact ⟨_, member, List.mem_cons_self⟩
  | listing seeks => exact seeks.written
  | package seeks => exact seeks.written
  | entry imported => exact imported.written
  | undecodable imported => exact imported.written
  | directoryAsFile imported => exact imported.written
  | symbol takes => exact (imported_of_symbol takes).written
  | cycle imported => exact imported.written

theorem FaultAt.path (faultAt : resolver.FaultAt scope statements fault span) {path : String}
    (about : fault.path = some path) :
    (∃ directory name, resolver.ImportSeeks statements directory name ∧ name.span = span ∧
      path = Path.join directory sourceDirectory) ∨
    ∃ entry, resolver.Imported statements entry span ∧
      (path = entry.path ∨ resolver.workspace.resolve entry.path = .ok path) := by
  cases faultAt with
  | root => cases about
  | listing seeks =>
    cases about
    exact .inl ⟨_, _, seeks, rfl, rfl⟩
  | package => cases about
  | entry imported =>
    cases about
    exact .inr ⟨_, imported, .inl rfl⟩
  | undecodable => cases about
  | directoryAsFile => cases about
  | symbol takes =>
    cases about
    exact .inr ⟨_, imported_of_symbol takes, .inl rfl⟩
  | cycle imported resolved =>
    rw [ImportFault.path, cycleThrough, List.getLast?_concat] at about
    cases about
    exact .inr ⟨_, imported, .inr resolved⟩

def Blames (resolver : Resolver) (scope : String) (statements : List Import)
    (error : ImportError) : Prop :=
  ∃ span, error.span = some span ∧ resolver.FaultAt scope statements error.fault span

theorem blames_of_missing (missing : resolver.Missing statements (.badImport error)) :
    resolver.Blames scope statements error := by
  rcases missing with ⟨statement, member, failed⟩ | ⟨directory, name, seeks, failed⟩
  · unfold rootOf at failed
    split at failed
    · cases failed
    · cases failed
    · rename_i unset gone
      cases failed
      exact ⟨_, rfl, .root member unset gone⟩
  · unfold candidatesOf at failed
    dsimp only at failed
    split at failed
    · rename_i unlisted
      cases failed
      exact ⟨_, rfl, .listing seeks unlisted⟩
    · rename_i entries listed
      split at failed
      · rename_i nothing
        cases failed
        refine ⟨_, rfl, .package seeks listed fun entry member => ?_⟩
        simpa using List.filter_eq_nil_iff.mp nothing entry member
      · cases failed

theorem blames_of_loadOf (imported : resolver.Imported statements entry span)
    (failed : resolver.workspace.loadOf entry span = .error (.badImport error)) :
    resolver.Blames scope statements error := by
  unfold Workspace.loadOf at failed
  split at failed
  · rename_i unseen
    cases failed
    exact ⟨_, rfl, .entry imported unseen⟩
  · rename_i unnamed
    cases failed
    exact ⟨_, rfl, .undecodable imported unnamed⟩
  · rename_i directory named
    cases failed
    exact ⟨_, rfl, .directoryAsFile imported directory named⟩
  · split at failed <;> cases failed

theorem blames_of_refuses (takes : resolver.ImportTakes statements entry taking)
    (refuses : resolver.Refuses scope entry taking (.badImport error)) :
    resolver.Blames scope statements error := by
  cases refuses with
  | load failed => exact blames_of_loadOf (imported_iff.mpr ⟨taking, rfl, takes⟩) failed
  | @symbol wanted program loaded undeclared =>
    obtain ⟨file, named, parsed, rfl⟩ := Workspace.loadOf_ok loaded
    refine ⟨_, rfl, .symbol takes parsed fun declares => ?_⟩
    obtain ⟨definition, found⟩ := Program.exists_definition? wanted.localName
      ((Program.declares_ofFile file named _).mpr declares)
    cases undeclared.symm.trans found

/-- Import statements that a resolution can come to, with the file in which they are written: the main
file, or the file behind an entry. -/
inductive WrittenIn (resolver : Resolver) (main : Option String) (imports : List Import) :
    Option String → List Import → Prop
  | main : WrittenIn resolver main imports main imports
  | file {source : List Import} {entry : Entry} {span : Span} {file : File}
      (reaches : resolver.Reaches imports source)
      (imported : resolver.Imported source entry span)
      (parsed : resolver.workspace.parseFile entry.path = .ok file) :
      WrittenIn resolver main imports (some entry.path) file.imports

variable {main source : Option String} {roots : List Import} {depth : Nat}

theorem WrittenIn.reaches (writtenIn : resolver.WrittenIn main roots source statements) :
    resolver.Reaches roots statements := by
  cases writtenIn with
  | main => exact .refl
  | file reaches imported parsed => exact reaches.tail ⟨_, _, _, imported, parsed, rfl⟩

theorem importsWithin_blames
    (writtenIn : resolver.WrittenIn main roots source statements)
    (failed : (resolver.importsWithin depth scope statements).outcome active =
      .error (.badImport error)) :
    ∃ source statements, resolver.WrittenIn main roots source statements ∧
      resolver.Blames scope statements error := by
  induction depth generalizing source statements active with
  | zero =>
    rw [importsWithin] at failed
    cases failed
  | succ depth ih =>
    rcases takes_of_importsWithin_error failed with missing | ⟨entry, taking, takes, failed⟩
    · exact ⟨source, statements, writtenIn, blames_of_missing missing⟩
    · have imported := imported_iff.mpr ⟨taking, rfl, takes⟩
      rcases take_cases failed with ⟨_, refuses, ⟨⟩⟩ | ⟨file, path, parsed, resolved, ended⟩
      · exact ⟨source, statements, writtenIn, blames_of_refuses takes refuses⟩
      -- the import comes back to a file around it, or the error is met behind the file
      · by_cases again : path ∈ active
        · rw [if_pos again] at ended
          cases ended
          exact ⟨source, statements, writtenIn, _, rfl, .cycle imported resolved again⟩
        · rw [if_neg again] at ended
          exact ih (.file writtenIn.reaches imported parsed) ended.symm

/-- The line and the column of a reported error are those of a part of an import, in the main file or
in a file that one comes to from there, and the fault is found at that part. The file of the report is
not that in which the import is written but what this part of the import searches or takes from. -/
theorem resolveProgram_location (resolver : Resolver) (program : Program) (path : Option String)
    (session after : Session) (error : ImportError) (outside : session.active = [])
    (run : resolver.resolveProgram program path session = .error (.badImport error) after) :
    ∃ source statements span,
      resolver.WrittenIn path program.imports source statements ∧
      (∃ statement ∈ statements, span ∈ statement.outline.spans) ∧
      resolver.FaultAt program.name statements error.fault span ∧
      (StructuredError.ofImportError error).location =
        some ⟨span.start.line, span.start.column, error.fault.path⟩ ∧
      ∀ named, error.fault.path = some named →
        (∃ directory name, resolver.ImportSeeks statements directory name ∧ name.span = span ∧
          named = Path.join directory sourceDirectory) ∨
        ∃ entry, resolver.Imported statements entry span ∧
          (named = entry.path ∨ resolver.workspace.resolve entry.path = .ok named) := by
  obtain ⟨_, system⟩ | ⟨main, member, -⟩ | ⟨within, failed⟩ :=
    resolveProgram_error (outcome_of_error run)
  · cases system
  · rw [outside] at member
    cases member
  obtain ⟨source, statements, writtenIn, span, place, faultAt⟩ :=
    importsWithin_blames .main failed
  refine ⟨source, statements, span, writtenIn, faultAt.written, faultAt, ?_,
    fun _ about => faultAt.path about⟩
  rw [StructuredError.ofImportError, place]
  rfl

def strayText : String := "\n\nimport foo.missing;"

def strayImports : Resolver := .ofSources
  [("main.leo", strayText), ("foo.leo", "circuit a \x7b v: u8 \x7d")]

def strayRun : EStateM.Result Failure Session Unit :=
  strayImports.resolveProgram (.ofText strayText "main") (some "/src/main.leo") (.start .empty)

def reportedLocation? : EStateM.Result Failure Session Unit → Option Location
  | .error (.badImport error) _ => (StructuredError.ofImportError error).location
  | _ => none

theorem strayRun_error : ∃ error after, strayRun = .error (.badImport error) after ∧
    (StructuredError.ofImportError error).location = some ⟨3, 12, some "/src/foo.leo"⟩ := by
  have location : reportedLocation? strayRun = some ⟨3, 12, some "/src/foo.leo"⟩ := by
    decide +kernel
  unfold reportedLocation? at location
  split at location
  · rename_i run
    exact ⟨_, _, run, location⟩
  · cases location

theorem strayRun_blames : ∃ (error : ImportError) (source : Option String)
    (statements : List Import) (span : Span),
    strayImports.WrittenIn (some "/src/main.leo") (Program.ofText strayText "main").imports
      source statements ∧
    (∃ statement ∈ statements, span ∈ statement.outline.spans) ∧
    strayImports.FaultAt (Program.ofText strayText "main").name statements error.fault span ∧
    span.start.line = 3 ∧ span.start.column = 12 ∧ error.fault.path = some "/src/foo.leo" := by
  obtain ⟨error, after, run, reported⟩ := strayRun_error
  obtain ⟨source, statements, span, writtenIn, written, faultAt, location, -⟩ :=
    resolveProgram_location strayImports (.ofText strayText "main") (some "/src/main.leo")
      (.start .empty) after error rfl run
  obtain ⟨line, column, path⟩ :=
    Location.mk.inj (Option.some.inj (location.symm.trans reported))
  exact ⟨error, source, statements, span, writtenIn, written, faultAt, line, column, path⟩

theorem ofText_of_parse {text name : String} {file : File}
    (parsed : File.parse text none = .ok file) : Program.ofText text name = .ofFile file name := by
  unfold Program.ofText
  split
  · rename_i same
    cases parsed.symm.trans same
    rfl
  · rename_i same
    cases parsed.symm.trans same

/-- The line and the column of a report need not be those of anything in the file of the report. Here
the file has one line, and the line is the third. -/
theorem location_of_other_file :
    ¬ ∀ (resolver : Resolver) (text path : String) (main : File) (error : ImportError)
      (after : Session) (location : Location) (named : String),
      File.parse text none = .ok main →
      resolver.resolveProgram (.ofFile main "main") (some path) (.start .empty) =
        .error (.badImport error) after →
      (StructuredError.ofImportError error).location = some location →
      location.file = some named →
      ∃ file, (resolver.workspace.parseFile named = .ok file ∨
          (named = path ∨ resolver.workspace.resolve path = .ok named) ∧ file = main) ∧
        ∃ span ∈ file.spans,
          location.line = span.start.line ∧ location.column = span.start.column := by
  intro oneFile
  have accepted : (File.parse strayText none).isOk := by decide +kernel
  have elsewhere : strayImports.workspace.resolve "/src/main.leo" ≠ .ok "/src/foo.leo" := by
    decide +kernel
  have lines : ((strayImports.workspace.parseFile "/src/foo.leo").toOption.map fun file =>
      file.spans.all fun span => span.start.line = 1) = some true := by
    decide +kernel
  obtain ⟨error, after, run, reported⟩ := strayRun_error
  obtain ⟨main, parsed⟩ := exists_of_isOk accepted
  rw [strayRun, ofText_of_parse parsed] at run
  obtain ⟨file, place, span, member, line, -⟩ := oneFile strayImports strayText
    "/src/main.leo" main error after ⟨3, 12, some "/src/foo.leo"⟩ "/src/foo.leo" parsed run
    reported rfl
  rcases place with read | ⟨same | same, -⟩
  · rw [read] at lines
    have first := List.all_eq_true.mp (Option.some.inj lines) span member
    rw [decide_eq_true_eq, ← line] at first
    cases first
  · exact absurd same (by decide)
  · exact elsewhere same

end Resolver

end LeoFront

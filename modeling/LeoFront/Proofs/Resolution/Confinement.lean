import LeoFront.Proofs.Resolution.EntryNames

namespace LeoFront
open Grammar (IsName)
open Text.Utf8 (encode)

def IsEntryName (name : String) : Prop :=
  ∃ package copies, IsName package ∧ name = extended package copies

theorem IsEntryName.isPlain {name : String} (isEntryName : IsEntryName name) :
    Path.IsPlain name := by
  obtain ⟨package, copies, isName, rfl⟩ := isEntryName
  exact isPlain_extended isName copies

namespace Path

def through : List String → String
  | [] => ""
  | name :: rest => name ++ "/" ++ (sourceDirectory ++ through rest)

theorem through_concat (names : List String) (last : String) :
    through (names ++ [last]) = through names ++ last ++ "/" ++ sourceDirectory := by
  induction names with
  | nil => simp [through]
  | cons first rest ih =>
    rw [List.cons_append, through, ih, through]
    simp only [String.append_assoc]

structure GoesDown (way : String) : Prop where
  down : ∀ component ∈ components way, component ≠ ['.'] ∧ component ≠ ['.', '.']
  single : [] ∉ (components way).dropLast

theorem components_through (name rest : String) (isPlain : IsPlain name) :
    components (name ++ "/" ++ (sourceDirectory ++ rest)) =
      name.toList :: "src".toList :: components rest := by
  have source : sourceDirectory ++ rest = "src" ++ "/" ++ rest := rfl
  rw [source, components_append, components_append, components_plain isPlain]
  rfl

theorem IsPlain.goesDown {name : String} (isPlain : IsPlain name) : GoesDown name := by
  constructor
  · rw [components_plain isPlain]
    exact List.forall_mem_singleton.mpr isPlain.ne_dots
  · rw [components_plain isPlain]
    exact List.not_mem_nil

theorem goesDown_empty : GoesDown "" := by
  constructor <;> decide

theorem goesDown_through {names : List String} (plain : ∀ name ∈ names, IsPlain name)
    {last : String} (ending : GoesDown last) : GoesDown (through names ++ last) := by
  induction names with
  | nil => simpa [through] using ending
  | cons name rest ih =>
    obtain ⟨here, later⟩ := List.forall_mem_cons.mp plain
    obtain ⟨down, single⟩ := ih later
    have split : components (through (name :: rest) ++ last) =
        name.toList :: "src".toList :: components (through rest ++ last) := by
      rw [← components_through name _ here, through]
      simp only [String.append_assoc]
    constructor
    · rw [split]
      exact List.forall_mem_cons.mpr ⟨here.ne_dots, List.forall_mem_cons.mpr ⟨by decide, down⟩⟩
    · have more : components (through rest ++ last) ≠ [] := splitAt_ne_nil _
      rw [split, List.dropLast_cons_of_ne_nil (List.cons_ne_nil _ _),
        List.dropLast_cons_of_ne_nil more]
      simp [here.toList_ne_nil.symm, single]

theorem tidy_through {base : String} {names : List String} (tidy : Tidy base)
    (plain : ∀ name ∈ names, IsPlain name) : Tidy (base ++ through names) := by
  induction names generalizing base with
  | nil => simpa [through] using tidy
  | cons name rest ih =>
    obtain ⟨here, later⟩ := List.forall_mem_cons.mp plain
    have inside : Tidy (base ++ name ++ "/" ++ sourceDirectory) :=
      tidy.join_source here ▸ tidy_source _
    simpa only [through, String.append_assoc] using ih inside later

end Path

namespace Resolver

/-- The source directory of the package root, or one that entries lead down to from there. -/
def SourceDirectory (resolver : Resolver) (path : String) : Prop :=
  ∃ root names, resolver.rootOf .none = .ok root ∧ (∀ name ∈ names, IsEntryName name) ∧
    path = Path.join root sourceDirectory ++ Path.through names ∧
    Path.GoesDown (Path.through names)

def SourceEntry (resolver : Resolver) (path : String) : Prop :=
  ∃ root names last, resolver.rootOf .none = .ok root ∧ (∀ name ∈ names, IsEntryName name) ∧
    IsEntryName last ∧ path = Path.join root sourceDirectory ++ (Path.through names ++ last) ∧
    Path.GoesDown (Path.through names ++ last)

variable {resolver : Resolver} {path name : String}

theorem sourceDirectory_root {span : Span} {root : String}
    (rooted : resolver.rootOf span = .ok root) :
    resolver.SourceDirectory (Path.join root sourceDirectory) :=
  ⟨root, [], rootOf_eq rooted _, by simp, by simp [Path.through], Path.goesDown_empty⟩

theorem SourceDirectory.entry (source : resolver.SourceDirectory path)
    (named : IsEntryName name) : resolver.SourceEntry (path ++ name) := by
  obtain ⟨root, names, rooted, others, rfl, -⟩ := source
  refine ⟨root, names, name, rooted, others, named, String.append_assoc, ?_⟩
  exact Path.goesDown_through (fun other member => (others other member).isPlain)
    named.isPlain.goesDown

theorem SourceEntry.directory (entry : resolver.SourceEntry path) :
    resolver.SourceDirectory (Path.join path sourceDirectory) := by
  obtain ⟨root, names, last, rooted, named, isLast, rfl, -⟩ := entry
  have plain : ∀ name ∈ names, Path.IsPlain name := fun name member => (named name member).isPlain
  have tidy := Path.tidy_through (Path.tidy_source root) plain
  have all : ∀ name ∈ names ++ [last], IsEntryName name :=
    List.forall_mem_append.mpr ⟨named, List.forall_mem_singleton.mpr isLast⟩
  refine ⟨root, names ++ [last], rooted, all, ?_, ?_⟩
  · rw [← String.append_assoc, tidy.join_source isLast.isPlain, Path.through_concat]
    simp only [String.append_assoc]
  · rw [← String.append_empty (s := Path.through (names ++ [last]))]
    exact Path.goesDown_through (fun name member => (all name member).isPlain) Path.goesDown_empty

def Confined (resolver : Resolver) : Event → Prop
  | .listed directory => resolver.SourceDirectory directory
  | .inspected bytes => ∃ path, resolver.SourceEntry path ∧ bytes = encode path
  | .opened path => resolver.SourceEntry path
  | .logged _ | .stored .. | .entered _ | .left _ => True

end Resolver

namespace Resolution
variable {α β ι : Type} {allowed : Event → Prop}

def Only (allowed : Event → Prop) (step : Resolution α) : Prop :=
  ∀ session, ∃ events, (sessionAfter (step session)).journal = events ++ session.journal ∧
    ∀ event ∈ events, allowed event

theorem only_iff (step : Resolution α) [Oblivious step] : Only allowed step ↔
    ∀ active, ∀ event ∈ (step.account active).events, allowed event := by
  have journal (session : Session) : (sessionAfter (step session)).journal =
      (step.account session.active).events.reverse ++ session.journal := by
    rw [sessionAfter_run]
    rfl
  constructor
  · intro only active event member
    obtain ⟨events, same, all⟩ := only ⟨.empty, active, []⟩
    rw [journal, List.append_nil, List.append_nil] at same
    exact all event (same ▸ List.mem_reverse.mpr member)
  · intro all session
    exact ⟨_, journal session, fun event member => all _ event (List.mem_reverse.mp member)⟩

theorem only_pure (value : α) : Only allowed (pure value : Resolution α) :=
  fun _ => ⟨[], rfl, by simp⟩

theorem only_throw (failure : Failure) : Only allowed (throw failure : Resolution α) :=
  fun _ => ⟨[], rfl, by simp⟩

theorem only_note {event : Event} (here : allowed event) : Only allowed (note event) :=
  fun _ => ⟨[event], rfl, by simpa using here⟩

theorem only_store {name : String} {definition : Definition}
    (here : allowed (.stored name definition)) : Only allowed (store name definition) :=
  fun _ => ⟨[.stored name definition], rfl, by simpa using here⟩

theorem Only.bind {step : Resolution α} {next : α → Resolution β} (first : Only allowed step)
    (second : ∀ session value after, step session = .ok value after → Only allowed (next value)) :
    Only allowed (step >>= next) := by
  intro session
  obtain ⟨events, journal, all⟩ := first session
  change ∃ _, (sessionAfter (EStateM.bind step next session)).journal = _ ∧ _
  unfold EStateM.bind
  cases run : step session with
  | error failure after =>
    rw [run] at journal
    exact ⟨events, journal, all⟩
  | ok value after =>
    rw [run] at journal
    obtain ⟨later, journal', all'⟩ := second session value after run after
    refine ⟨later ++ events, ?_, List.forall_mem_append.mpr ⟨all', all⟩⟩
    rw [journal', List.append_assoc]
    exact congrArg _ journal

theorem Only.forM {step : ι → Resolution Unit} {items : List ι}
    (each : ∀ item ∈ items, Only allowed (step item)) : Only allowed (items.forM step) := by
  induction items with
  | nil => exact only_pure ()
  | cons first rest ih =>
    obtain ⟨here, later⟩ := List.forall_mem_cons.mp each
    exact here.bind fun _ _ _ _ => ih later

theorem Only.inside {workspace : Workspace} {path : String} {span : Span} {body : Resolution Unit}
    [Oblivious body] (only : Only allowed body)
    (entered : ∀ path, allowed (.entered path) ∧ allowed (.left path)) :
    Only allowed (inside workspace path span body) := by
  rw [only_iff] at only ⊢
  intro active
  rw [account_inside, insideAccount]
  split
  · simp
  · split
    · simp
    · rename_i key _ _
      simp only [List.cons_append, List.forall_mem_cons, List.forall_mem_append]
      exact ⟨(entered key).1, only _, by simpa using (entered key).2⟩

end Resolution

namespace Resolver
open Resolution
variable {resolver : Resolver} {imports : Imports} {directory scope : String} {name : Identifier}
  {candidates : Candidates} {entry : Entry} {span : Span} {access : Access}

structure Holds (resolver : Resolver) (entry : Entry) : Prop where
  source : resolver.SourceEntry entry.path
  rawPath : entry.rawPath = encode entry.path

theorem Holds.inspected (holds : resolver.Holds entry) :
    resolver.Confined (.inspected entry.rawPath) := ⟨_, holds.source, holds.rawPath⟩

theorem holds_of_candidatesOf (source : resolver.SourceDirectory (Path.join directory sourceDirectory))
    (wellFormed : name.WellFormed)
    (found : resolver.candidatesOf directory name = .ok candidates) :
    ∀ entry ∈ candidates.first :: candidates.others, resolver.Holds entry := by
  intro entry member
  obtain ⟨copies, named⟩ := named_of_candidatesOf wellFormed found entry member
  refine ⟨?_, named.rawPath⟩
  rw [named.path, (rawName_of_candidatesOf found entry member).1]
  exact source.entry ⟨_, copies, wellFormed, rfl⟩

theorem only_candidates
    (source : resolver.SourceDirectory (Path.join directory sourceDirectory)) :
    Only resolver.Confined (resolver.candidates directory name) := by
  rw [only_iff]
  intro active
  rw [account_candidates]
  exact List.forall_mem_singleton.mpr source

theorem mem_inspections {wantDirectory : Bool} {entries : List Entry} {event : Event}
    (member : event ∈ resolver.inspections wantDirectory entries) :
    ∃ entry ∈ entries, event = .inspected entry.rawPath := by
  induction entries with
  | nil => cases member
  | cons entry rest ih =>
    rw [inspections] at member
    rcases List.mem_cons.mp member with rfl | later
    · exact ⟨entry, List.mem_cons_self, rfl⟩
    · split at later
      · cases later
      · obtain ⟨other, among, same⟩ := ih later
        exact ⟨other, List.mem_cons_of_mem _ among, same⟩

theorem only_choose (wantDirectory : Bool)
    (holds : ∀ entry ∈ candidates.first :: candidates.others, resolver.Holds entry) :
    Only resolver.Confined (resolver.choose name candidates wantDirectory) := by
  rw [only_iff]
  intro active event member
  rw [account_choose] at member
  rcases List.mem_append.mp member with asked | told
  · split at asked
    · cases asked
    · rcases List.mem_append.mp asked with looked | told
      · obtain ⟨entry, among, rfl⟩ := mem_inspections looked
        exact (holds entry among).inspected
      · cases List.mem_singleton.mp told
        trivial
  · cases List.mem_singleton.mp told
    trivial

theorem only_loadEntry (holds : resolver.Holds entry) :
    Only resolver.Confined (loadEntry resolver.workspace entry span) := by
  rw [only_iff]
  intro active
  rw [account_loadEntry, loadEvents]
  split
  · exact List.forall_mem_cons.mpr ⟨holds.inspected, List.forall_mem_singleton.mpr holds.source⟩
  · exact List.forall_mem_singleton.mpr holds.inspected

def Keeps (resolver : Resolver) (imports : Imports) : Prop :=
  ∀ scope statements, (∀ statement ∈ statements, statement.WellFormed) →
    Only resolver.Confined (imports scope statements)

theorem only_define (keeps : resolver.Keeps imports) {program : Program}
    (wellFormed : ∀ statement ∈ program.imports, statement.WellFormed) :
    Only resolver.Confined (define imports program) :=
  (keeps _ _ wellFormed).bind fun _ _ _ _ => .forM fun _ _ => only_store trivial

theorem imports_of_loadEntry {session after : Session} {program : Program}
    (run : loadEntry resolver.workspace entry span session = .ok program after) :
    ∀ statement ∈ program.imports, statement.WellFormed := by
  have loaded := outcome_of_ok run
  rw [outcome, account_loadEntry] at loaded
  obtain ⟨file, name, parsed, rfl⟩ := Workspace.loadOf_ok loaded
  rw [Program.imports_ofFile]
  exact Workspace.imports_wellFormed parsed

theorem only_takeAll [∀ scope statements, Oblivious (imports scope statements)]
    (keeps : resolver.Keeps imports) (holds : resolver.Holds entry) :
    Only resolver.Confined (resolver.takeAll imports scope entry span) := by
  refine (only_loadEntry holds).bind fun session program after run => ?_
  have wellFormed := imports_of_loadEntry run
  have defined : Only resolver.Confined (define imports (program.rename scope)) :=
    only_define keeps wellFormed
  exact (only_note trivial).bind fun _ _ _ _ => defined.inside fun _ => ⟨trivial, trivial⟩

theorem only_takeSymbol [∀ scope statements, Oblivious (imports scope statements)]
    (keeps : resolver.Keeps imports) (holds : resolver.Holds entry) (symbol : ImportSymbol) :
    Only resolver.Confined (resolver.takeSymbol imports scope entry symbol) := by
  refine (only_loadEntry holds).bind fun session program after run => ?_
  dsimp only
  split
  · exact only_throw _
  · refine (only_note trivial).bind fun _ _ _ _ => (only_store trivial).bind fun _ _ _ _ => ?_
    exact (keeps _ _ (imports_of_loadEntry run)).inside fun _ => ⟨trivial, trivial⟩

mutual

theorem only_takeFrom [∀ scope statements, Oblivious (imports scope statements)]
    (keeps : resolver.Keeps imports) {name : Identifier} {candidates : Candidates} (access : Access)
    (wellFormed : access.WellFormed)
    (holds : ∀ entry ∈ candidates.first :: candidates.others, resolver.Holds entry) :
    Only resolver.Confined (resolver.takeFrom imports scope name candidates access) := by
  have chosen {wantDirectory : Bool} {session after : Session} {entry : Entry}
      (run : resolver.choose name candidates wantDirectory session = .ok entry after) :
      resolver.Holds entry := by
    have selected := outcome_of_ok run
    rw [outcome, account_choose] at selected
    cases selected
    exact holds _ (resolver.selected_mem candidates wantDirectory)
  cases access with
  | star span =>
    rw [takeFrom]
    exact (only_choose false holds).bind fun _ _ _ run => only_takeAll keeps (chosen run)
  | symbol symbol =>
    rw [takeFrom]
    exact (only_choose false holds).bind fun _ _ _ run =>
      only_takeSymbol keeps (chosen run) symbol
  | subPackage inner access span =>
    rw [takeFrom]
    refine (only_choose true holds).bind fun _ entry _ run => ?_
    -- The chosen entry lies in a source directory, so its own source directory is one too.
    have source := (chosen run).source.directory
    refine (only_candidates source).bind fun session inside after run => ?_
    have found := outcome_of_ok run
    rw [outcome, account_candidates] at found
    exact only_takeFrom keeps access wellFormed.2 (holds_of_candidatesOf source wellFormed.1 found)
  | multiple accesses span =>
    rw [takeFrom]
    exact only_takeEachFrom keeps accesses wellFormed.2 holds

theorem only_takeEachFrom [∀ scope statements, Oblivious (imports scope statements)]
    (keeps : resolver.Keeps imports) {name : Identifier} {candidates : Candidates}
    (accesses : List Access) (wellFormed : Access.EachWellFormed accesses)
    (holds : ∀ entry ∈ candidates.first :: candidates.others, resolver.Holds entry) :
    Only resolver.Confined (resolver.takeEachFrom imports scope name candidates accesses) := by
  cases accesses with
  | nil =>
    rw [takeEachFrom]
    exact only_pure ()
  | cons first rest =>
    rw [takeEachFrom]
    exact (only_takeFrom keeps first wellFormed.1 holds).bind fun _ _ _ _ =>
      only_takeEachFrom keeps rest wellFormed.2 holds

end

theorem only_takePackage [∀ scope statements, Oblivious (imports scope statements)]
    (keeps : resolver.Keeps imports)
    (source : resolver.SourceDirectory (Path.join directory sourceDirectory))
    (named : name.WellFormed) (wellFormed : access.WellFormed) :
    Only resolver.Confined (resolver.takePackage imports scope directory name access) := by
  refine (only_candidates source).bind fun session candidates after run => ?_
  have found := outcome_of_ok run
  rw [outcome, account_candidates] at found
  exact only_takeFrom keeps access wellFormed (holds_of_candidatesOf source named found)

theorem keeps_importsWithin (resolver : Resolver) (depth : Nat) :
    resolver.Keeps (resolver.importsWithin depth) := by
  induction depth with
  | zero => exact fun scope statements wellFormed => only_throw .tooDeep
  | succ depth ih =>
    intro scope statements wellFormed
    refine Only.forM fun statement member => ?_
    obtain ⟨named, known⟩ := wellFormed statement member
    have rootAsked : Only resolver.Confined (resolver.rootPath statement.span) := by
      rw [only_iff]
      simp
    refine rootAsked.bind fun session root after run => ?_
    have rooted := outcome_of_ok run
    rw [outcome, account_rootPath] at rooted
    exact only_takePackage ih (sourceDirectory_root rooted) named known

/-- Whatever is asked of the file system while a program that was read is resolved is asked at the
source directory of the package root or below, at a path that goes down through entries of packages,
whatever the sources say and whatever names the directories have. -/
theorem resolveProgram_confined {text : String} {sourceName : Option String} {file : File}
    (parsed : File.parse text sourceName = .ok file) (resolver : Resolver) (name : String)
    (path : Option String) (session : Session) :
    ∃ events, (sessionAfter (resolver.resolveProgram (.ofFile file name) path session)).journal =
        events ++ session.journal ∧
      ∀ event ∈ events, resolver.Confined event := by
  have defined : Only resolver.Confined (resolver.resolveDefinitions (.ofFile file name)) := by
    refine only_define (resolver.keeps_importsWithin _) ?_
    rw [Program.imports_ofFile]
    exact (File.parse_sound parsed).1.imports
  cases path with
  | none => exact defined session
  | some path => exact defined.inside (fun _ => ⟨trivial, trivial⟩) session

def askedPath? : Event → Option String
  | .listed path | .opened path => some path
  | .inspected bytes => some (Text.Utf8.decodeLossy bytes)
  | .logged _ | .stored .. | .entered _ | .left _ => none

def nestedPackages : Resolver :=
  let file (text : String) : Node := .file (encode text)
  let nodes : List (NodePath × Node) := [(.ofNames ["app"], .directory),
    (.ofNames ["app", "src"], .directory), (.ofNames ["app", "src", "outer"], .directory),
    (.ofNames ["app", "src", "outer", "src"], .directory),
    (.ofNames ["app", "src", "outer", "src", "inner.leo"], file "import other.*;"),
    (.ofNames ["app", "src", "other"], .directory),
    (.ofNames ["app", "src", "other.leo.leo"], file "")]
  ⟨.ofNodes nodes, some "/home/.././app//"⟩

def nestedText : String := "import outer.inner.*;"

theorem nestedPackages_confined : ∃ file events, File.parse nestedText none = .ok file ∧
    (sessionAfter (nestedPackages.resolveProgram (.ofFile file "main") (some "/main.leo")
      (.start .empty))).journal = events ∧
    events.reverse.filterMap askedPath? = ["/app/src/", "/app/src/outer/src/",
      "/app/src/outer/src/inner.leo", "/app/src/outer/src/inner.leo", "/app/src/",
      "/app/src/other", "/app/src/other.leo.leo", "/app/src/other.leo.leo",
      "/app/src/other.leo.leo"] ∧
    ∀ event ∈ events, nestedPackages.Confined event := by
  have asked : ((File.parse nestedText none).toOption.map fun file =>
      (sessionAfter (nestedPackages.resolveProgram (.ofFile file "main") (some "/main.leo")
        (.start .empty))).journal.reverse.filterMap askedPath?) =
      some ["/app/src/", "/app/src/outer/src/",
        "/app/src/outer/src/inner.leo", "/app/src/outer/src/inner.leo", "/app/src/",
        "/app/src/other", "/app/src/other.leo.leo", "/app/src/other.leo.leo",
        "/app/src/other.leo.leo"] := by
    decide +kernel
  obtain ⟨file, parsed, asked⟩ := exists_of_view asked
  obtain ⟨events, journal, all⟩ :=
    resolveProgram_confined parsed nestedPackages "main" (some "/main.leo") (.start .empty)
  replace journal := journal.trans (List.append_nil events)
  refine ⟨file, events, parsed, journal, ?_, all⟩
  rw [← journal]
  exact asked

end Resolver

end LeoFront

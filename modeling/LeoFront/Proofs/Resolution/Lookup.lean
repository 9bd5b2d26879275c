import LeoFront.Proofs.Files.Relisting
import LeoFront.Proofs.Resolution.Requests

namespace LeoFront
open Resolution

namespace Resolver
variable {workspace other : Workspace}

theorem isDirectory_of_alike (alike : workspace.Alike other) (entry : Entry) :
    Resolution.isDirectory other entry = Resolution.isDirectory workspace entry := by
  simp only [Resolution.isDirectory, alike.isDirectory]

theorem loadEntry_of_alike (alike : workspace.Alike other) (entry : Entry) (span : Span) :
    loadEntry other entry span = loadEntry workspace entry span := by
  simp only [loadEntry, isDirectory_of_alike alike, Resolution.parseFile, alike.parseFile]

theorem inside_of_alike (alike : workspace.Alike other) (path : String) (span : Span)
    (body : Resolution Unit) : inside other path span body = inside workspace path span body := by
  simp only [inside, Workspace.resolve, alike.cwdText]

variable {root : Option String}

theorem candidates_of_alike (alike : workspace.Alike other) (directory : String)
    (name : Identifier) : candidates ⟨other, root⟩ directory name =
      candidates ⟨workspace, root⟩ directory name := by
  simp only [candidates, Resolution.entries, alike.entries]

theorem firstOfKind_of_alike (alike : workspace.Alike other) (wantDirectory : Bool)
    (entries : List Entry) : firstOfKind ⟨other, root⟩ wantDirectory entries =
      firstOfKind ⟨workspace, root⟩ wantDirectory entries := by
  induction entries with
  | nil => rfl
  | cons entry rest ih => simp only [firstOfKind, isDirectory_of_alike alike, ih]

theorem choose_of_alike (alike : workspace.Alike other) (name : Identifier)
    (candidates : Candidates) (wantDirectory : Bool) :
    choose ⟨other, root⟩ name candidates wantDirectory =
      choose ⟨workspace, root⟩ name candidates wantDirectory := by
  simp only [choose, firstOfKind_of_alike alike]

theorem takeAll_of_alike (alike : workspace.Alike other) (imports : Imports) (scope : String)
    (entry : Entry) (span : Span) : takeAll ⟨other, root⟩ imports scope entry span =
      takeAll ⟨workspace, root⟩ imports scope entry span := by
  simp only [takeAll, loadEntry_of_alike alike, inside_of_alike alike]

theorem takeSymbol_of_alike (alike : workspace.Alike other) (imports : Imports) (scope : String)
    (entry : Entry) (symbol : ImportSymbol) : takeSymbol ⟨other, root⟩ imports scope entry symbol =
      takeSymbol ⟨workspace, root⟩ imports scope entry symbol := by
  simp only [takeSymbol, loadEntry_of_alike alike, inside_of_alike alike]

mutual

theorem takeFrom_of_alike (alike : workspace.Alike other) (imports : Imports) (scope : String)
    (name : Identifier) (candidates : Candidates) (access : Access) :
    takeFrom ⟨other, root⟩ imports scope name candidates access =
      takeFrom ⟨workspace, root⟩ imports scope name candidates access := by
  cases access with
  | star span => simp only [takeFrom, choose_of_alike alike, takeAll_of_alike alike]
  | symbol symbol => simp only [takeFrom, choose_of_alike alike, takeSymbol_of_alike alike]
  | subPackage inner access span =>
    have inside := fun candidates =>
      takeFrom_of_alike alike imports scope inner candidates access
    simp only [takeFrom, choose_of_alike alike, candidates_of_alike alike, inside]
  | multiple accesses span =>
    simp only [takeFrom]
    exact takeEachFrom_of_alike alike imports scope name candidates accesses

theorem takeEachFrom_of_alike (alike : workspace.Alike other) (imports : Imports) (scope : String)
    (name : Identifier) (candidates : Candidates) (accesses : List Access) :
    takeEachFrom ⟨other, root⟩ imports scope name candidates accesses =
      takeEachFrom ⟨workspace, root⟩ imports scope name candidates accesses := by
  cases accesses with
  | nil => rfl
  | cons first rest =>
    simp only [takeEachFrom]
    rw [takeFrom_of_alike alike imports scope name candidates first,
      takeEachFrom_of_alike alike imports scope name candidates rest]

end

theorem takePackage_of_alike (alike : workspace.Alike other) (imports : Imports)
    (scope directory : String) (name : Identifier) (access : Access) :
    takePackage ⟨other, root⟩ imports scope directory name access =
      takePackage ⟨workspace, root⟩ imports scope directory name access := by
  simp only [takePackage, candidates_of_alike alike, takeFrom_of_alike alike]

theorem importsWithin_of_alike (alike : workspace.Alike other) (depth : Nat) :
    importsWithin ⟨other, root⟩ depth = importsWithin ⟨workspace, root⟩ depth := by
  funext scope statements
  induction depth generalizing scope statements with
  | zero => rfl
  | succ depth ih =>
    have nested : importsWithin ⟨other, root⟩ depth = importsWithin ⟨workspace, root⟩ depth := by
      funext scope statements
      exact ih scope statements
    simp only [importsWithin, rootPath, alike.cwdText, takePackage_of_alike alike, nested]

theorem imports_of_alike (alike : workspace.Alike other) :
    imports ⟨other, root⟩ = imports ⟨workspace, root⟩ := by
  simp only [imports, alike.importDepth, importsWithin_of_alike alike]

mutual

theorem takeEntry_of_alike (alike : workspace.Alike other) (imports : Imports) (scope : String)
    (entry : Entry) (access : Access) : takeEntry ⟨other, root⟩ imports scope entry access =
      takeEntry ⟨workspace, root⟩ imports scope entry access := by
  cases access with
  | star span => exact takeAll_of_alike alike imports scope entry span
  | symbol taken => exact takeSymbol_of_alike alike imports scope entry taken
  | subPackage inner access span =>
    exact takePackage_of_alike alike imports scope entry.path inner access
  | multiple accesses span => exact takeEachEntry_of_alike alike imports scope entry accesses

theorem takeEachEntry_of_alike (alike : workspace.Alike other) (imports : Imports) (scope : String)
    (entry : Entry) (accesses : List Access) :
    takeEachEntry ⟨other, root⟩ imports scope entry accesses =
      takeEachEntry ⟨workspace, root⟩ imports scope entry accesses := by
  cases accesses with
  | nil => rfl
  | cons first rest =>
    rw [takeEachEntry, takeEachEntry, takeEntry_of_alike alike imports scope entry first,
      takeEachEntry_of_alike alike imports scope entry rest]

end

theorem serve_of_alike (alike : workspace.Alike other) (request : Request) :
    serve ⟨other, root⟩ request = serve ⟨workspace, root⟩ request := by
  cases request with
  | program program path =>
    cases path <;> simp only [serve, resolveProgram, resolveDefinitions, imports_of_alike alike,
      inside_of_alike alike]
  | definitions program => simp only [serve, resolveDefinitions, imports_of_alike alike]
  | statement scope statement => simp only [serve, resolveImport, imports_of_alike alike]
  | package scope directory package =>
    simp only [serve, resolvePackage, imports_of_alike alike, takePackage_of_alike alike]
  | access scope entry access =>
    simp only [serve, resolveAccess, imports_of_alike alike, takeEntry_of_alike alike]
  | everything scope entry span =>
    simp only [serve, imports_of_alike alike, takeAll_of_alike alike]
  | symbol scope entry taken =>
    simp only [serve, imports_of_alike alike, takeSymbol_of_alike alike]

end Resolver

mutual

def Access.members : Access → List Access
  | .star span => [.star span]
  | .symbol taken => [.symbol taken]
  | .subPackage name access span => [.subPackage name access span]
  | .multiple accesses _ => Access.membersOfEach accesses

def Access.membersOfEach : List Access → List Access
  | [] => []
  | first :: rest => first.members ++ Access.membersOfEach rest

end

def Access.isSubPackage : Access → Bool
  | .subPackage .. => true
  | .star _ | .symbol _ | .multiple .. => false

namespace Resolver
variable {resolver : Resolver} {imports : Imports} {scope : String}

def takeMember (resolver : Resolver) (imports : Imports) (scope : String) (name : Identifier)
    (candidates : Candidates) (member : Access) : Resolution Unit := do
  let entry ← resolver.choose name candidates member.isSubPackage
  resolver.takeEntry imports scope entry member

mutual

theorem takeFrom_eq (name : Identifier) (candidates : Candidates) (access : Access) :
    resolver.takeFrom imports scope name candidates access =
      access.members.forM (resolver.takeMember imports scope name candidates) := by
  have one (member : Access) : [member].forM (resolver.takeMember imports scope name candidates) =
      resolver.takeMember imports scope name candidates member := bind_pure_unit
  cases access with
  | star span =>
    rw [takeFrom, Access.members, one]
    rfl
  | symbol taken =>
    rw [takeFrom, Access.members, one]
    rfl
  | subPackage inner access span =>
    rw [takeFrom, Access.members, one]
    rfl
  | multiple accesses span =>
    rw [takeFrom, Access.members]
    exact takeEachFrom_eq name candidates accesses

theorem takeEachFrom_eq (name : Identifier) (candidates : Candidates) (accesses : List Access) :
    resolver.takeEachFrom imports scope name candidates accesses =
      (Access.membersOfEach accesses).forM
        (resolver.takeMember imports scope name candidates) := by
  cases accesses with
  | nil => rfl
  | cons first rest =>
    rw [takeEachFrom, Access.membersOfEach, takeFrom_eq name candidates first,
      takeEachFrom_eq name candidates rest]
    exact (List.forM_append ..).symm

end

theorem firstOfKind_eq (resolver : Resolver) (wantDirectory : Bool) (entries : List Entry) :
    ∃ asked ⊆ entries, resolver.firstOfKind wantDirectory entries = (do
      asked.forM fun entry => note (.inspected entry.rawPath)
      return entries.find? (resolver.isOfKind wantDirectory)) := by
  induction entries with
  | nil => exact ⟨[], List.Subset.refl _, rfl⟩
  | cons entry rest ih =>
    obtain ⟨asked, among, searched⟩ := ih
    cases wanted : resolver.isOfKind wantDirectory entry with
    | true =>
      refine ⟨[entry], by simp, ?_⟩
      simp only [firstOfKind_cons, List.find?_cons, wanted, if_true]
      rfl
    | false =>
      refine ⟨entry :: asked, List.cons_subset_cons entry among, ?_⟩
      simp only [firstOfKind_cons, List.find?_cons, wanted, searched, Bool.false_eq_true, if_false]
      exact (bind_assoc ..).symm

/-- Reports which of the entries of a package is used, with a warning if there are others. -/
def announce (name : Identifier) (entries : List Entry) (entry : Entry) : Resolution Unit := do
  if 1 < entries.length then
    log .warn (String.join ["package ", name.name, " matches ",
      ", ".intercalate (entries.map Entry.path), "; using ", entry.path])
  log .debug (String.join ["resolving package ", name.name, " from ", entry.path])

theorem announce_warns (name : Identifier) (entries : List Entry) (entry : Entry)
    (session : Session) : ∃ logged : List LogLine,
      announce name entries entry session =
        .ok () { session with journal := logged.map .logged ++ session.journal } ∧
      ((∃ line ∈ logged, line.level = .warn) ↔ 1 < entries.length) := by
  obtain ⟨warning, used, announced⟩ : ∃ warning used : String, announce name entries entry = (do
      if 1 < entries.length then log .warn warning
      log .debug used) := ⟨_, _, rfl⟩
  rw [announced]
  by_cases several : 1 < entries.length
  · refine ⟨[⟨.debug, used⟩, ⟨.warn, warning⟩], ?_, by simp [several]⟩
    rw [if_pos several]
    rfl
  · refine ⟨[⟨.debug, used⟩], ?_, by simp [several]⟩
    rw [if_neg several]
    rfl

theorem choose_eq (resolver : Resolver) (name : Identifier) (candidates : Candidates)
    (wantDirectory : Bool) :
    ∃ asked ⊆ candidates.first :: candidates.others,
      resolver.choose name candidates wantDirectory = (do
        asked.forM fun entry => note (.inspected entry.rawPath)
        announce name (candidates.first :: candidates.others)
          (resolver.selected candidates wantDirectory)
        return resolver.selected candidates wantDirectory) := by
  obtain ⟨first, others⟩ := candidates
  cases others with
  | nil => exact ⟨[], List.nil_subset _, rfl⟩
  | cons second others =>
    obtain ⟨asked, among, searched⟩ :=
      resolver.firstOfKind_eq wantDirectory (first :: second :: others)
    refine ⟨asked, among, ?_⟩
    simp [choose, searched, selected, announce]

end Resolver

/-- Which of the names of a package in a directory is used. Names stand in the order of their bytes. -/
inductive Chosen (workspace : Workspace) (source : String) (wantDirectory : Bool)
    (names : List FileName) (name : FileName) : Prop
  | only (alone : names = [name])
  /-- Of several names, the first one that is known to lead to what is wanted. -/
  | wanted (several : 1 < names.length)
      (least : IsLeast {other | other ∈ names ∧
        workspace.isDirectory (Entry.mk source other).rawPath = .ok wantDirectory} name)
  /-- Of several names, none of which is known to do so, the first one. -/
  | fallback (several : 1 < names.length)
      (unwanted : ∀ other ∈ names,
        workspace.isDirectory (Entry.mk source other).rawPath ≠ .ok wantDirectory)
      (least : IsLeast {other | other ∈ names} name)

namespace Resolver

theorem chosen_selected (resolver : Resolver) {candidates : Candidates} {source : String}
    {names : List FileName}
    (listed : candidates.first :: candidates.others = (FileName.sort names).map (Entry.mk source))
    (wantDirectory : Bool) :
    ∃ name, resolver.selected candidates wantDirectory = ⟨source, name⟩ ∧
      Chosen resolver.workspace source wantDirectory names name := by
  obtain ⟨first, others⟩ := candidates
  have perm := FileName.sort_perm names
  have ordered := FileName.sort_pairwise names
  cases sorted : FileName.sort names with
  | nil => simp [sorted] at listed
  | cons name rest =>
    rw [sorted] at listed perm ordered
    obtain ⟨rfl, rfl⟩ := List.cons.inj listed
    cases rest with
    | nil => exact ⟨name, rfl, .only (List.perm_singleton.mp perm.symm)⟩
    | cons second rest =>
      have several : 1 < names.length := by simp [← perm.length_eq]
      have searched : resolver.selected ⟨⟨source, name⟩, (second :: rest).map (Entry.mk source)⟩
          wantDirectory = (((name :: second :: rest).find? fun other =>
            resolver.isOfKind wantDirectory ⟨source, other⟩).map (Entry.mk source)).getD
              ⟨source, name⟩ := by
        rw [← Function.comp_def, ← List.find?_map]
        rfl
      rw [searched]
      cases found : (name :: second :: rest).find? fun other =>
          resolver.isOfKind wantDirectory ⟨source, other⟩ with
      | none =>
        refine ⟨name, rfl, .fallback several ?_ ?_⟩
        · intro other member isWanted
          have unwanted := List.find?_eq_none.mp found other (perm.mem_iff.mpr member)
          exact unwanted (isOfKind_iff.mpr isWanted)
        · simpa only [perm.mem_iff] using FileName.isLeast_head ordered
      | some chosen =>
        refine ⟨chosen, rfl, .wanted several ?_⟩
        simpa only [perm.mem_iff, isOfKind_iff] using FileName.isLeast_find? ordered found

theorem candidates_eq (resolver : Resolver) {directory source : String} {name : Identifier}
    {listing names : List FileName} (inside : Path.join directory sourceDirectory = source)
    (listed : resolver.workspace.list source = .ok listing)
    (kept : listing.filter (FileName.OfPackage · name.name) = names) (known : names ≠ []) :
    ∃ candidates : Candidates,
      candidates.first :: candidates.others = (FileName.sort names).map (Entry.mk source) ∧
      resolver.candidates directory name = (do
        note (.listed source)
        return candidates) := by
  have matching : ((FileName.sort listing).map (Entry.mk source)).filter
      (·.packageName = name.name) = (FileName.sort names).map (Entry.mk source) := by
    rw [List.filter_map, ← kept, ← FileName.filter_sort]
    simp only [Function.comp_def, Entry.packageName_eq_iff]
  simp only [candidates, Resolution.entries, Workspace.entries, inside, listed, Except.map,
    bind_assoc, pure_bind, matching]
  cases sorted : FileName.sort names with
  | nil =>
    have perm := FileName.sort_perm names
    rw [sorted] at perm
    exact absurd perm.symm.eq_nil known
  | cons first others => exact ⟨⟨⟨source, first⟩, others.map (Entry.mk source)⟩, rfl, rfl⟩

/-- How a package is looked up, once for all that is taken from it, if some names in its directory
belong to it. -/
structure LooksUp (resolver : Resolver) (directory : String) (name : Identifier)
    (names : List FileName) (choice : Bool → FileName) (asked : Bool → List Entry) : Prop where
  chosen : ∀ wantDirectory, Chosen resolver.workspace (Path.join directory sourceDirectory)
    wantDirectory names (choice wantDirectory)
  among : ∀ wantDirectory, asked wantDirectory ⊆
    names.map (Entry.mk (Path.join directory sourceDirectory))
  run : ∀ imports scope access,
    resolver.takePackage imports scope directory name access = (do
      let source := Path.join directory sourceDirectory
      note (.listed source)
      access.members.forM fun member => do
        let entry : Entry := ⟨source, choice member.isSubPackage⟩
        (asked member.isSubPackage).forM fun entry => note (.inspected entry.rawPath)
        announce name ((FileName.sort names).map (Entry.mk source)) entry
        resolver.takeEntry imports scope entry member)
  /-- A warning is logged if and only if more than one name belongs to the package. -/
  warns : ∀ (entry : Entry) (session : Session), ∃ logged : List LogLine,
    announce name ((FileName.sort names).map (Entry.mk (Path.join directory sourceDirectory)))
        entry session = .ok () { session with journal := logged.map .logged ++ session.journal } ∧
      ((∃ line ∈ logged, line.level = .warn) ↔ 1 < names.length)

theorem exists_looksUp (resolver : Resolver) {directory : String} {name : Identifier}
    {listing : List FileName}
    (listed : resolver.workspace.list (Path.join directory sourceDirectory) = .ok listing)
    (known : listing.filter (FileName.OfPackage · name.name) ≠ []) :
    ∃ choice asked, resolver.LooksUp directory name
      (listing.filter (FileName.OfPackage · name.name)) choice asked := by
  let source := Path.join directory sourceDirectory
  let names := listing.filter (FileName.OfPackage · name.name)
  obtain ⟨candidates, all, searched⟩ := resolver.candidates_eq rfl listed rfl known
  choose choice selected chosen using resolver.chosen_selected all
  choose asked among inspected using resolver.choose_eq name candidates
  simp only [all, selected] at among inspected
  refine ⟨choice, asked, chosen, ?_, ?_, ?_⟩
  · intro wantDirectory entry member
    exact ((FileName.sort_perm names).map _).subset (among wantDirectory member)
  · intro imports scope access
    have step : resolver.takeMember imports scope name candidates = fun member => (do
        (asked member.isSubPackage).forM fun entry => note (.inspected entry.rawPath)
        announce name ((FileName.sort names).map (Entry.mk source))
          ⟨source, choice member.isSubPackage⟩
        resolver.takeEntry imports scope ⟨source, choice member.isSubPackage⟩ member) := by
      funext member
      simp only [takeMember, inspected, bind_assoc, pure_bind]
      rfl
    rw [takePackage, searched]
    simp only [takeFrom_eq, step, bind_assoc, pure_bind]
    rfl
  · intro entry session
    have length : ((FileName.sort names).map (Entry.mk source)).length = names.length := by
      rw [List.length_map, (FileName.sort_perm names).length_eq]
    rw [← length]
    exact announce_warns name _ entry session

/-- However directories are listed, a request leaves the same session and ends alike. A package with
names in its directory is looked up under the one that is chosen among them, whoever looks it up. -/
theorem serve_relisted {workspace other : Workspace} (relisted : workspace.Relisted other)
    (root : Option String) :
    (∀ request, serve ⟨other, root⟩ request = serve ⟨workspace, root⟩ request) ∧
    ∀ (directory : String) (name : Identifier) (listing : List FileName),
      let names := listing.filter (FileName.OfPackage · name.name)
      workspace.list (Path.join directory sourceDirectory) = .ok listing → names ≠ [] →
      names.Nodup ∧
        ∃ choice asked, LooksUp ⟨workspace, root⟩ directory name names choice asked := by
  refine ⟨serve_of_alike relisted.alike, ?_⟩
  intro directory name listing names listed known
  have distinct : names.Nodup := (Workspace.nodup_list listed).filter _
  exact ⟨distinct, exists_looksUp ⟨workspace, root⟩ listed known⟩

/-- A package whose name is that of a link to nowhere, of a directory and of a file. -/
def crowdedEntries : List (NodePath × Node) :=
  let name := Text.Utf8.encode
  [([name "src"], .directory),
    ([name "src", name "a.leo.leo"], .file (Text.Utf8.encode "circuit x \x7b v: u8 \x7d")),
    ([name "src", name "a.leo"], .directory),
    ([name "src", name "a"], .link (name "nowhere"))]

def crowdedPackage (entries : List (NodePath × Node)) : Workspace :=
  ⟨Table.empty.write entries, [], false⟩

/-- `import a.*;` -/
def crowdedImport : Request :=
  .statement "main" ⟨⟨⟨"a", .none⟩, .star .none, .none⟩, .none⟩

theorem crowdedPackage_relisted :
    let workspace := crowdedPackage crowdedEntries
    let other := crowdedPackage crowdedEntries.reverse
    let names := ["a.leo.leo", "a.leo", "a"].map Text.Utf8.encode
    workspace.Relisted other ∧ workspace.list "/src/" = .ok names ∧
    other.list "/src/" = .ok names.reverse ∧
    (sessionAfter (serve ⟨workspace, some "/"⟩ crowdedImport (.start .empty))).store.keys =
      ["main_x"] ∧
    (sessionAfter (serve ⟨other, some "/"⟩ crowdedImport (.start .empty))).store.keys =
      ["main_x"] ∧
    ∃ choice asked, LooksUp ⟨workspace, some "/"⟩ "/" ⟨"a", .none⟩ names choice asked := by
  intro workspace other names
  have relisted : workspace.Relisted other := ⟨by decide +kernel, rfl, rfl⟩
  have listed : workspace.list "/src/" = .ok names := by decide +kernel
  have matching : names.filter (FileName.OfPackage · "a") = names := by decide +kernel
  have stored : (sessionAfter (serve ⟨workspace, some "/"⟩ crowdedImport
      (.start .empty))).store.keys = ["main_x"] := by decide +kernel
  obtain ⟨same, looked⟩ := serve_relisted relisted (some "/")
  have source : Path.join "/" sourceDirectory = "/src/" := by decide +kernel
  have found := looked "/" ⟨"a", .none⟩ names
  dsimp only at found
  rw [source, matching] at found
  obtain ⟨-, choice, asked, looked⟩ := found listed (List.cons_ne_nil _ _)
  refine ⟨relisted, listed, by decide +kernel, stored, ?_, choice, asked, looked⟩
  rw [same]
  exact stored

end Resolver

end LeoFront

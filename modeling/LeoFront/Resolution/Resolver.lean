import LeoFront.Resolution.Session

/-!
# Resolving imports

Every import is searched from the package root. A package name selects entries of a source directory;
what is taken from the package selects one of them and goes on from there. Taking declarations from a
file resolves the imports of that file in turn, depth first, into the scope of the importing program.

A file whose imports are being resolved is active, and an import that leads back to it is a cycle. So
the files nested in one another are all different, and `Tree.importDepth` bounds how many can be.
-/

namespace LeoFront

def Tree.longestFile (tree : Tree) : Nat :=
  tree.values.foldl (fun longest node =>
    match node with
    | .file content => max longest content.length
    | .directory | .link _ => longest) 0

/-- More than the number of files that can be nested in one another. An import in a file names at most
as many packages, one inside the other, as the file is long, and each of them is one of the names in
the tree. -/
def Tree.importDepth (tree : Tree) : Nat :=
  Nat.pow (tree.size + 1) tree.longestFile + 3

structure Resolver where
  workspace : Workspace
  root : Option String

namespace Resolver
open Resolution

abbrev Imports := String → List Import → Resolution Unit

structure Candidates where
  first : Entry
  others : List Entry

def candidates (resolver : Resolver) (directory : String) (name : Identifier) :
    Resolution Candidates := do
  let source := Path.join directory sourceDirectory
  match ← entries resolver.workspace source with
  | .error cause => fault (.directory cause.message (some source)) name.span
  | .ok entries =>
    match entries.filter (·.packageName = name.name) with
    | [] => fault (.unknownPackage name.name) name.span
    | first :: others => return ⟨first, others⟩

def firstOfKind (resolver : Resolver) (wantDirectory : Bool) : List Entry → Resolution (Option Entry)
  | [] => return none
  | entry :: rest => do
    match ← isDirectory resolver.workspace entry with
    | .ok isDirectory =>
      if isDirectory = wantDirectory then return some entry
      else resolver.firstOfKind wantDirectory rest
    | .error _ => resolver.firstOfKind wantDirectory rest

/-- The entry that declarations are taken from. Of several, one of the wanted kind is preferred. -/
def choose (resolver : Resolver) (name : Identifier) (candidates : Candidates)
    (wantDirectory : Bool) : Resolution Entry := do
  let entry ← match candidates.others with
    | [] => pure candidates.first
    | others => do
      let all := candidates.first :: others
      let found ← resolver.firstOfKind wantDirectory all
      let entry := found.getD candidates.first
      log .warn (String.join ["package ", name.name, " matches ",
        ", ".intercalate (all.map Entry.path), "; using ", entry.path])
      pure entry
  log .debug (String.join ["resolving package ", name.name, " from ", entry.path])
  return entry

def define (imports : Imports) (program : Program) : Resolution Unit := do
  imports program.name program.imports
  program.definitions.forM fun entry => store entry.1 entry.2

def takeAll (resolver : Resolver) (imports : Imports) (scope : String) (entry : Entry)
    (span : Span) : Resolution Unit := do
  let program ← loadEntry resolver.workspace entry span
  log .debug (String.join ["importing all declarations of ", entry.path, " into ", scope])
  inside resolver.workspace entry.path span (define imports (program.rename scope))

def takeSymbol (resolver : Resolver) (imports : Imports) (scope : String) (entry : Entry)
    (symbol : ImportSymbol) : Resolution Unit := do
  let program ← loadEntry resolver.workspace entry symbol.span
  let wanted := symbol.symbol.name
  match program.definition? wanted symbol.localName with
  | none => fault (.unknownSymbol wanted scope entry.path) symbol.span
  | some definition =>
    let name := qualify scope symbol.localName
    log .debug (String.join ["storing ", wanted, " from ", entry.path, " as ", name])
    store name definition
    inside resolver.workspace entry.path symbol.span (imports scope program.imports)

mutual

/-- Follows an access from the entries of a package. Each leaf chooses its own entry. -/
def takeFrom (resolver : Resolver) (imports : Imports) (scope : String) (name : Identifier)
    (candidates : Candidates) : Access → Resolution Unit
  | .star span => do
    resolver.takeAll imports scope (← resolver.choose name candidates false) span
  | .symbol symbol => do
    resolver.takeSymbol imports scope (← resolver.choose name candidates false) symbol
  | .subPackage inner access _ => do
    let entry ← resolver.choose name candidates true
    takeFrom resolver imports scope inner (← resolver.candidates entry.path inner) access
  | .multiple accesses _ => takeEachFrom resolver imports scope name candidates accesses

def takeEachFrom (resolver : Resolver) (imports : Imports) (scope : String) (name : Identifier)
    (candidates : Candidates) : List Access → Resolution Unit
  | [] => return ()
  | first :: rest => do
    takeFrom resolver imports scope name candidates first
    takeEachFrom resolver imports scope name candidates rest

end

def takePackage (resolver : Resolver) (imports : Imports) (scope directory : String)
    (name : Identifier) (access : Access) : Resolution Unit := do
  resolver.takeFrom imports scope name (← resolver.candidates directory name) access

mutual

def takeEntry (resolver : Resolver) (imports : Imports) (scope : String) (entry : Entry) :
    Access → Resolution Unit
  | .star span => resolver.takeAll imports scope entry span
  | .symbol symbol => resolver.takeSymbol imports scope entry symbol
  | .subPackage inner access _ => resolver.takePackage imports scope entry.path inner access
  | .multiple accesses _ => takeEachEntry resolver imports scope entry accesses

def takeEachEntry (resolver : Resolver) (imports : Imports) (scope : String) (entry : Entry) :
    List Access → Resolution Unit
  | [] => return ()
  | first :: rest => do
    takeEntry resolver imports scope entry first
    takeEachEntry resolver imports scope entry rest

end

def rootPath (resolver : Resolver) (span : Span) : Resolution String :=
  match resolver.root with
  | some root => return root
  | none =>
    match resolver.workspace.cwdText with
    | .ok cwd => return cwd
    | .error error => fault (.directory error.message none) span

def importsWithin (resolver : Resolver) : (depth : Nat) → Imports
  | 0, _, _ => throw .tooDeep
  | depth + 1, scope, statements =>
    statements.forM fun statement => do
      let root ← resolver.rootPath statement.span
      resolver.takePackage (resolver.importsWithin depth) scope root statement.package.name
        statement.package.access

def imports (resolver : Resolver) : Imports :=
  resolver.importsWithin resolver.workspace.tree.importDepth

def resolveImport (resolver : Resolver) (scope : String) (statement : Import) : Resolution Unit :=
  resolver.imports scope [statement]

def resolvePackage (resolver : Resolver) (scope directory : String) (package : Package) :
    Resolution Unit :=
  resolver.takePackage resolver.imports scope directory package.name package.access

def resolveAccess (resolver : Resolver) (scope : String) (entry : Entry) (access : Access) :
    Resolution Unit :=
  resolver.takeEntry resolver.imports scope entry access

def resolveDefinitions (resolver : Resolver) (program : Program) : Resolution Unit :=
  define resolver.imports program

/-- Resolves a main program. With a path, its file is active, so that imports leading back to it are
cycles. -/
def resolveProgram (resolver : Resolver) (program : Program) (path : Option String) :
    Resolution Unit :=
  match path with
  | none => resolver.resolveDefinitions program
  | some path =>
    inside resolver.workspace path .none (resolver.resolveDefinitions program)

end Resolver

end LeoFront

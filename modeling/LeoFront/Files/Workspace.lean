import LeoFront.Files.Tree

/-!
# Reading a file system

A workspace is a file tree with a working directory, from which relative paths start. The working
directory may have been removed; then it has no name any more and nothing is in it.

* `Workspace.list` lists a directory.
* `Workspace.isDirectory` asks what stands at a path.
* `Workspace.read` reads a file as text.
-/

namespace LeoFront

inductive OsCode where
  | noEntry | notDirectory | tooManyLinks | isDirectory
  deriving DecidableEq

inductive SystemCall where
  | scandir | stat | open | read | workingDirectory
  deriving DecidableEq

structure OsError where
  code : OsCode
  call : SystemCall
  path : Option String
  deriving DecidableEq

namespace OsCode

def symbol : OsCode → String
  | noEntry => "ENOENT"
  | notDirectory => "ENOTDIR"
  | tooManyLinks => "ELOOP"
  | isDirectory => "EISDIR"

def description : OsCode → String
  | noEntry => "no such file or directory"
  | notDirectory => "not a directory"
  | tooManyLinks => "too many symbolic links encountered"
  | isDirectory => "illegal operation on a directory"

def ofWalkError : Tree.WalkError → OsCode
  | .missing _ => noEntry
  | .notDirectory => notDirectory
  | .tooManyLinks => tooManyLinks

end OsCode

def SystemCall.text : SystemCall → String
  | scandir => "scandir"
  | stat => "stat"
  | .open => "open"
  | read => "read"
  | workingDirectory => "uv_cwd"

def OsError.message (error : OsError) : String :=
  let place := match error.path with
    | some path => " '" ++ path ++ "'"
    | none => ""
  error.code.symbol ++ ": " ++ error.code.description ++ ", " ++ error.call.text ++ place

structure Workspace where
  tree : Tree
  cwd : NodePath
  cwdRemoved : Bool

namespace Workspace

def pathText (path : NodePath) : String :=
  String.ofList ('/' :: Path.joined (path.map fun name => (Text.Utf8.decodeLossy name).toList))

def cwdText (workspace : Workspace) : Except OsError String :=
  if workspace.cwdRemoved then .error ⟨.noEntry, .workingDirectory, none⟩
  else .ok (pathText workspace.cwd)

def resolve (workspace : Workspace) (path : String) : Except OsError String :=
  if Path.isAbsolute path then .ok (Path.absolute path)
  else workspace.cwdText.map fun cwd => Path.absolute (cwd ++ "/" ++ path)

/-- Where a path in bytes leads. From a removed working directory only the way up is left. -/
def locate (workspace : Workspace) (path : List UInt8) : Except OsCode Tree.Place :=
  let components := Path.splitAt Tree.separator path
  let place :=
    if path = [] then .error (.missing none)
    else if path.head? = some Tree.separator then workspace.tree.walk Tree.maxLinks [] components
    else if workspace.cwdRemoved then
      match components.dropWhile (fun name => name = [] || name = Tree.selfName) with
      | [] => .ok (.directory workspace.cwd)
      | name :: rest =>
        if name = Tree.parentName then
          workspace.tree.walk Tree.maxLinks workspace.cwd.dropLast rest
        else .error (.missing none)
    else workspace.tree.walk Tree.maxLinks workspace.cwd components
  place.mapError OsCode.ofWalkError

def list (workspace : Workspace) (directory : String) : Except OsError (List FileName) :=
  match workspace.locate (Text.Utf8.encode directory) with
  | .ok (.directory path) => .ok (workspace.tree.namesIn path)
  | .ok (.file _ _) => .error ⟨.notDirectory, .scandir, some directory⟩
  | .error code => .error ⟨code, .scandir, some directory⟩

def isDirectory (workspace : Workspace) (path : List UInt8) : Except OsError Bool :=
  match workspace.locate path with
  | .ok (.directory _) => .ok true
  | .ok (.file _ _) => .ok false
  | .error code => .error ⟨code, .stat, some (Text.Utf8.decodeLossy path)⟩

def read (workspace : Workspace) (path : String) : Except OsError String :=
  match workspace.locate (Text.Utf8.encode path) with
  | .ok (.file _ content) => .ok (Text.Utf8.decodeLossy content)
  | .ok (.directory _) => .error ⟨.isDirectory, .read, none⟩
  | .error code => .error ⟨code, .open, some path⟩

end Workspace

end LeoFront

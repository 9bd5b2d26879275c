import LeoFront.Program.Basic
import LeoFront.Resolution.Fault
import LeoFront.Text.Trim

namespace LeoFront

def sourceExtension : String := ".leo"

def sourceDirectory : String := "src/"

/-- An entry of a directory. The name is kept as bytes, since it need not be text. -/
structure Entry where
  directory : String
  rawName : FileName
  deriving DecidableEq

namespace Entry

def name (entry : Entry) : String := Text.Utf8.decodeLossy entry.rawName

def path (entry : Entry) : String := Path.join entry.directory entry.name

def fileName (entry : Entry) : Option String := Text.Utf8.decodeStrict entry.rawName

def rawPath (entry : Entry) : List UInt8 :=
  let directory := if Path.endsWithSeparator entry.directory then entry.directory
    else entry.directory ++ "/"
  Text.Utf8.encode directory ++ entry.rawName

def packageName (entry : Entry) : String := Text.trimEndMatches entry.name sourceExtension

end Entry

def FileName.before : FileName → FileName → Bool
  | _, [] => false
  | [], _ :: _ => true
  | a :: as, b :: bs => a < b || (a = b && FileName.before as bs)

def FileName.insertSorted (name : FileName) : List FileName → List FileName
  | [] => [name]
  | first :: rest =>
    if FileName.before first name then first :: FileName.insertSorted name rest
    else name :: first :: rest

def FileName.sort (names : List FileName) : List FileName :=
  names.foldr FileName.insertSorted []

def Workspace.entries (workspace : Workspace) (directory : String) :
    Except OsError (List Entry) :=
  (workspace.list directory).map fun names =>
    (FileName.sort names).map fun name => ⟨directory, name⟩

def Workspace.parseFile (workspace : Workspace) (path : String) : Except SourceError File :=
  match workspace.read path with
  | .error cause => .error (.unreadable path cause)
  | .ok source =>
    match File.parse source (some path) with
    | .error error => .error (.malformed error)
    | .ok file => .ok file

end LeoFront

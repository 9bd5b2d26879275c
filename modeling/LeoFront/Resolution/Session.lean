import LeoFront.Log
import LeoFront.Program.Definition
import LeoFront.Resolution.Entry

namespace LeoFront

inductive Event where
  | listed (directory : String)
  | inspected (path : List UInt8)
  | opened (path : String)
  | logged (line : LogLine)
  | stored (name : String) (definition : Definition)
  | entered (path : String)
  | left (path : String)

structure Session where
  store : DefinitionStore
  /-- The files whose imports are being resolved, the innermost first. -/
  active : List String
  /-- What was done, the latest first. -/
  journal : List Event

def Session.start (store : DefinitionStore) : Session := ⟨store, [], []⟩

def Session.log (session : Session) : List LogLine :=
  session.journal.reverse.filterMap fun
    | .logged line => some line
    | _ => none

/-- A step of a resolution. What it did before it failed stays in the session. -/
abbrev Resolution (α : Type) := EStateM Failure Session α

namespace Resolution

def note (event : Event) : Resolution Unit :=
  modify fun session => { session with journal := event :: session.journal }

def log (level : LogLevel) (message : String) : Resolution Unit := note (.logged ⟨level, message⟩)

def fault {α : Type} (fault : ImportFault) (span : Span) : Resolution α :=
  throw (.badImport ⟨fault, some span⟩)

def store (name : String) (definition : Definition) : Resolution Unit := do
  note (.stored name definition)
  modify fun session => { session with store := session.store.insert name definition }

def entries (workspace : Workspace) (directory : String) :
    Resolution (Except OsError (List Entry)) := do
  note (.listed directory)
  return workspace.entries directory

def isDirectory (workspace : Workspace) (entry : Entry) : Resolution (Except OsError Bool) := do
  note (.inspected entry.rawPath)
  return workspace.isDirectory entry.rawPath

def parseFile (workspace : Workspace) (path : String) : Resolution File := do
  note (.opened path)
  match workspace.parseFile path with
  | .ok file => return file
  | .error error => throw (.badSource error)

def loadEntry (workspace : Workspace) (entry : Entry) (span : Span) : Resolution Program := do
  match ← isDirectory workspace entry with
  | .error cause => fault (.directory cause.message (some entry.path)) span
  | .ok isDirectory =>
    match entry.fileName with
    | none => fault .undecodableName span
    | some name =>
      if isDirectory then fault (.directoryAsFile name) span
      else return .ofFile (← parseFile workspace entry.path) name

def cycleThrough (active : List String) (path : String) : List String :=
  (active.takeWhile (· ≠ path) ++ [path]).reverse ++ [path]

/-- Does something inside a file. A file inside itself is a cycle. Whether the body succeeds or fails,
the file is left afterwards. -/
def inside (workspace : Workspace) (path : String) (span : Span) (body : Resolution Unit) :
    Resolution Unit := do
  match workspace.resolve path with
  | .error error => throw (.system error)
  | .ok path =>
    let session ← get
    if path ∈ session.active then fault (.cycle (cycleThrough session.active path)) span
    else
      note (.entered path)
      modify fun session => { session with active := path :: session.active }
      try body
      finally
        modify fun session => { session with active := session.active.tail }
        note (.left path)

end Resolution

end LeoFront

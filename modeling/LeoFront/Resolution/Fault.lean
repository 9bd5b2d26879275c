import LeoFront.Files.Workspace
import LeoFront.Grammar.SyntaxError

namespace LeoFront
open Text (Message)

inductive ImportFault where
  | directory (reason : String) (path : Option String)
  | undecodableName
  | directoryAsFile (name : String)
  | unknownSymbol (symbol program path : String)
  | unknownPackage (name : String)
  /-- The files on the way around the cycle; the first comes again at the end. -/
  | cycle (chain : List String)
  deriving DecidableEq

namespace ImportFault

def kind : ImportFault → String
  | directory .. => "DirectoryError"
  | undecodableName => "ConvertOsString"
  | directoryAsFile _ => "ExpectedFile"
  | unknownSymbol .. => "UnknownSymbol"
  | unknownPackage _ => "UnknownPackage"
  | cycle _ => "CyclicImport"

def message : ImportFault → String
  | directory reason _ => "Compilation failed due to directory error: " ++ reason
  | undecodableName => "Failed to convert file string name, maybe an illegal character?"
  | directoryAsFile name =>
    "Cannot import symbol `" ++ name ++ "` from directory `" ++ name ++ "`"
  | unknownSymbol symbol program path =>
    "cannot find imported symbol `" ++ symbol ++ "` in imported file `" ++ program ++
      "` (searched " ++ path ++ ")"
  | unknownPackage name =>
    "cannot find imported package `" ++ name ++ "` in source files or import directory"
  | cycle chain => "cyclic import detected: " ++ " -> ".intercalate chain

def path : ImportFault → Option String
  | directory _ path => path
  | unknownSymbol _ _ path => some path
  | cycle chain => chain.getLast?
  | undecodableName | directoryAsFile _ | unknownPackage _ => none

end ImportFault

structure ImportError where
  fault : ImportFault
  span : Option Span
  deriving DecidableEq

inductive SourceError where
  | unreadable (path : String) (cause : OsError)
  | malformed (error : SyntaxError)

namespace SourceError

def filePath : SourceError → String
  | unreadable path _ => path
  | malformed error => error.sourceName

def message : SourceError → Message
  | unreadable path cause => .ofString (path ++ ": cannot read file: " ++ cause.message)
  | malformed error => error.message

end SourceError

inductive Failure where
  | badImport (error : ImportError)
  | badSource (error : SourceError)
  | system (error : OsError)
  | tooDeep

namespace Failure

def name : Failure → String
  | badImport _ => "ImportError"
  | badSource _ => "ParserError"
  | system _ | tooDeep => "Error"

def message : Failure → Message
  | badImport error => .ofString error.fault.message
  | badSource error => error.message
  | system error => .ofString error.message
  | tooDeep => .ofString "imports are nested too deep"

end Failure

end LeoFront

import LeoFront.Files.Path
import LeoFront.Table
import LeoFront.Text.Utf8

namespace LeoFront

abbrev FileName := List UInt8

abbrev NodePath := List FileName

inductive Node where
  | directory
  | file (content : List UInt8)
  | link (target : List UInt8)
  deriving DecidableEq

abbrev Tree := Table NodePath Node

namespace Tree

def separator : UInt8 := 0x2F

def selfName : FileName := [0x2E]

def parentName : FileName := [0x2E, 0x2E]

def namesIn (tree : Tree) (directory : NodePath) : List FileName :=
  tree.keys.filterMap fun path =>
    match path.getLast? with
    | some name => if path.dropLast = directory then some name else none
    | none => none

inductive WalkError where
  /-- Nothing is there. If only the last name of the path is missing, `vacant` is the place that it
  would have. -/
  | missing (vacant : Option NodePath)
  | notDirectory | tooManyLinks
  deriving DecidableEq

inductive Place where
  | directory (path : NodePath)
  | file (path : NodePath) (content : List UInt8)
  deriving DecidableEq

inductive Leg where
  | arrived (place : Place)
  | stuck (error : WalkError)
  | link (directory : NodePath) (components : List FileName)

def leg (tree : Tree) (directory : NodePath) : List FileName → Leg
  | [] => .arrived (.directory directory)
  | name :: rest =>
    if name = [] || name = selfName then tree.leg directory rest
    else if name = parentName then tree.leg directory.dropLast rest
    else
      match tree.get? (directory ++ [name]) with
      | none => .stuck (.missing (if rest = [] then some (directory ++ [name]) else none))
      | some .directory => tree.leg (directory ++ [name]) rest
      | some (.file content) =>
        if rest = [] then .arrived (.file (directory ++ [name]) content) else .stuck .notDirectory
      | some (.link target) =>
        .link (if target.head? = some separator then [] else directory)
          (Path.splitAt separator target ++ rest)

def walk (tree : Tree) : (links : Nat) → NodePath → List FileName → Except WalkError Place
  | links, directory, components =>
    match tree.leg directory components with
    | .arrived place => .ok place
    | .stuck error => .error error
    | .link next left =>
      match links with
      | 0 => .error .tooManyLinks
      | links + 1 => tree.walk links next left

def maxLinks : Nat := 40

end Tree

end LeoFront

import LeoFront.Files.Workspace

/-!
# Changing a file system

Files, directories and links are made at absolute paths; the directories above them are made too where
they are missing. What is written through a link goes to the place the link leads to, and a file is
made there if the place is vacant. Nothing is replaced but the content of a file: where something of
another kind stands in the way, the tree stays as it is.
-/

namespace LeoFront

namespace Tree

def steps (path : List UInt8) : List FileName :=
  (Path.splitAt separator path).filter fun name => !(name = [] || name = selfName)

/-- Walks down from a directory and makes what is missing. A link that leads nowhere is in the way,
since no directory is made through a link. -/
def ensureFrom (tree : Tree) (directory : NodePath) : List FileName → Option (Tree × NodePath)
  | [] => some (tree, directory)
  | name :: rest =>
    match tree.walk maxLinks directory [name] with
    | .ok (.directory next) => ensureFrom tree next rest
    | .error (.missing (some vacant)) =>
      if vacant = directory ++ [name] then ensureFrom (tree.insert vacant .directory) vacant rest
      else none
    | _ => none

def changeAt (tree : Tree) (path : List UInt8) (change : Tree → NodePath → FileName → Tree) : Tree :=
  let steps := steps path
  match steps.getLast?, tree.ensureFrom [] steps.dropLast with
  | some name, some (made, directory) => change made directory name
  | _, _ => tree

def makeDirectory (tree : Tree) (path : List UInt8) : Tree :=
  ((tree.ensureFrom [] (steps path)).map Prod.fst).getD tree

def writeFile (tree : Tree) (path content : List UInt8) : Tree :=
  tree.changeAt path fun made directory name =>
    match made.walk maxLinks directory [name] with
    | .ok (.file place _) | .error (.missing (some place)) => made.insert place (.file content)
    | _ => made

def makeLink (tree : Tree) (path target : List UInt8) : Tree :=
  tree.changeAt path fun made directory name =>
    if made.contains (directory ++ [name]) then made
    else made.insert (directory ++ [name]) (.link target)

def removeAt (tree : Tree) (place : NodePath) : Tree :=
  tree.filterKeys fun path => !place.isPrefixOf path

def remove (tree : Tree) (path : List UInt8) : Tree :=
  let steps := steps path
  match steps.getLast?, tree.walk maxLinks [] steps.dropLast with
  | some name, .ok (.directory directory) => tree.removeAt (directory ++ [name])
  | _, _ => tree

end Tree

namespace Workspace

/-- Changes the tree. A working directory that is gone after the change stays removed. -/
def update (workspace : Workspace) (change : Tree → Tree) : Workspace :=
  let tree := change workspace.tree
  { workspace with
    tree
    cwdRemoved := workspace.cwdRemoved ||
      !(workspace.cwd = [] || tree.get? workspace.cwd = some .directory) }

def enter (workspace : Workspace) (path : List UInt8) : Workspace :=
  match workspace.tree.walk Tree.maxLinks [] (Tree.steps path) with
  | .ok (.directory place) => { workspace with cwd := place, cwdRemoved := false }
  | _ => workspace

end Workspace

end LeoFront

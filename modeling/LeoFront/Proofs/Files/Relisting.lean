import LeoFront.Proofs.Files.Listing
import LeoFront.Proofs.Files.Sources
import Mathlib.Data.List.Perm.Basic

namespace LeoFront

theorem Table.get?_of_perm {κ α : Type} [DecidableEq κ] {first second : Table κ α}
    (perm : first.entries.Perm second.entries) (key : κ) : first.get? key = second.get? key := by
  ext value
  rw [Table.get?_eq_some_iff, Table.get?_eq_some_iff]
  exact perm.mem_iff

namespace Tree
variable {tree other : Tree}

theorem leg_of_get? (same : ∀ path, other.get? path = tree.get? path) (directory : NodePath)
    (components : List FileName) : other.leg directory components = tree.leg directory components := by
  induction components generalizing directory with
  | nil => rfl
  | cons name rest ih => simp only [leg, ih, same]

theorem walk_of_get? (same : ∀ path, other.get? path = tree.get? path) (links : Nat)
    (directory : NodePath) (components : List FileName) :
    other.walk links directory components = tree.walk links directory components := by
  induction links generalizing directory components with
  | zero =>
    unfold walk
    rw [leg_of_get? same]
  | succ links ih =>
    unfold walk
    rw [leg_of_get? same]
    cases tree.leg directory components with
    | arrived place => rfl
    | stuck error => rfl
    | link next left => exact ih next left

theorem namesIn_perm (perm : other.entries.Perm tree.entries) (directory : NodePath) :
    (other.namesIn directory).Perm (tree.namesIn directory) :=
  (perm.map Prod.fst).filterMap _

theorem importDepth_of_perm (perm : other.entries.Perm tree.entries) :
    other.importDepth = tree.importDepth := by
  have size : other.size = tree.size := perm.length_eq
  have longest : other.longestFile = tree.longestFile := by
    rw [longestFile_eq, longestFile_eq]
    exact ((perm.map Prod.snd).map nodeLength).foldr_eq 0
  rw [importDepth, importDepth, size, longest]

end Tree

namespace Workspace

/-- The same file system, but maybe with other orders of listing. -/
structure Relisted (workspace other : Workspace) : Prop where
  tree : other.tree.entries.Perm workspace.tree.entries
  cwd : other.cwd = workspace.cwd
  cwdRemoved : other.cwdRemoved = workspace.cwdRemoved

structure Alike (workspace other : Workspace) : Prop where
  entries : other.entries = workspace.entries
  isDirectory : other.isDirectory = workspace.isDirectory
  parseFile : other.parseFile = workspace.parseFile
  cwdText : other.cwdText = workspace.cwdText
  importDepth : other.tree.importDepth = workspace.tree.importDepth

namespace Relisted
variable {workspace other : Workspace}

theorem locate (relisted : Relisted workspace other) (path : List UInt8) :
    other.locate path = workspace.locate path := by
  have same := Tree.walk_of_get? (Table.get?_of_perm relisted.tree)
  simp only [Workspace.locate, same, relisted.cwd, relisted.cwdRemoved]

theorem list (relisted : Relisted workspace other) (directory : String) :
    (∃ error, workspace.list directory = .error error ∧ other.list directory = .error error) ∨
      ∃ names names', workspace.list directory = .ok names ∧ other.list directory = .ok names' ∧
        names'.Perm names := by
  simp only [Workspace.list, relisted.locate]
  cases workspace.locate (Text.Utf8.encode directory) with
  | error code => exact .inl ⟨_, rfl, rfl⟩
  | ok place =>
    cases place with
    | directory path => exact .inr ⟨_, _, rfl, rfl, Tree.namesIn_perm relisted.tree path⟩
    | file path content => exact .inl ⟨_, rfl, rfl⟩

theorem entries (relisted : Relisted workspace other) : other.entries = workspace.entries := by
  funext directory
  rw [Workspace.entries, Workspace.entries]
  rcases relisted.list directory with ⟨error, here, there⟩ | ⟨names, names', here, there, perm⟩
  · rw [here, there]
  · rw [here, there, Except.map, Except.map, FileName.sort_eq_of_perm perm]

theorem alike (relisted : Relisted workspace other) : Alike workspace other where
  entries := relisted.entries
  isDirectory := by
    funext path
    simp only [Workspace.isDirectory, relisted.locate]
  parseFile := by
    funext path
    simp only [Workspace.parseFile, Workspace.read, relisted.locate]
  cwdText := by simp only [Workspace.cwdText, relisted.cwd, relisted.cwdRemoved]
  importDepth := Tree.importDepth_of_perm relisted.tree

end Relisted

end Workspace

end LeoFront

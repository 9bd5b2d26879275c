import LeoFront.Proofs.Files.Sources
import LeoFront.Proofs.Resolution.Selection
import Mathlib.Algebra.Group.Nat.Defs

namespace LeoFront

namespace Resolver
variable {resolver : Resolver} {entry : Entry} {span : Span} {directory : String}
  {candidates : Candidates}

def pathThrough (directory : String) : List FileName → String
  | [] => directory
  | name :: rest => pathThrough (Entry.path ⟨Path.join directory sourceDirectory, name⟩) rest

def ways (names : List FileName) : (length : Nat) → List (List FileName)
  | 0 => [[]]
  | length + 1 => [] :: names.flatMap fun name => (ways names length).map (name :: ·)

theorem mem_ways {names way : List FileName} {length : Nat} (short : way.length ≤ length)
    (known : ∀ name ∈ way, name ∈ names) : way ∈ ways names length := by
  induction way generalizing length with
  | nil => cases length <;> simp [ways]
  | cons name rest ih =>
    cases length with
    | zero => cases short
    | succ length =>
      obtain ⟨here, later⟩ := List.forall_mem_cons.mp known
      have onward := ih (Nat.le_of_succ_le_succ short) later
      exact List.mem_cons_of_mem _
        (List.mem_flatMap.mpr ⟨name, here, List.mem_map_of_mem onward⟩)

theorem length_ways (names : List FileName) (length : Nat) :
    (ways names length).length ≤ (names.length + 1) ^ length := by
  induction length with
  | zero => simp [ways]
  | succ length ih =>
    have positive : 0 < (names.length + 1) ^ length := Nat.pow_pos (Nat.succ_pos _)
    calc (ways names (length + 1)).length
        = names.length * (ways names length).length + 1 := by
          simp [ways, List.length_flatMap, List.map_const']
      _ ≤ names.length * (names.length + 1) ^ length + (names.length + 1) ^ length :=
          Nat.add_le_add (Nat.mul_le_mul_left _ ih) positive
      _ = (names.length + 1) ^ (length + 1) := by
          rw [Nat.pow_succ, Nat.mul_comm _ (names.length + 1), Nat.add_mul, Nat.one_mul]

theorem listed_of_candidatesOf {name : Identifier}
    (found : resolver.candidatesOf directory name = .ok candidates) :
    ∃ entries, resolver.workspace.entries (Path.join directory sourceDirectory) = .ok entries ∧
      ∀ entry ∈ candidates.first :: candidates.others,
        entry ∈ entries ∧ entry.packageName = name.name := by
  unfold candidatesOf at found
  dsimp only at found
  split at found
  · cases found
  · rename_i entries listed
    split at found
    · cases found
    · rename_i first others chosen
      cases found
      refine ⟨entries, listed, fun entry member => ?_⟩
      rw [← chosen] at member
      simpa using List.mem_filter.mp member

theorem rawName_of_candidatesOf {name : Identifier}
    (found : resolver.candidatesOf directory name = .ok candidates) :
    ∀ entry ∈ candidates.first :: candidates.others,
      entry.directory = Path.join directory sourceDirectory ∧
        entry.rawName ∈ resolver.workspace.tree.names := by
  obtain ⟨entries, listed, belongs⟩ := listed_of_candidatesOf found
  exact fun entry member => Workspace.rawName_of_entries listed entry (belongs entry member).1

theorem selected_mem (resolver : Resolver) (candidates : Candidates) (wantDirectory : Bool) :
    resolver.selected candidates wantDirectory ∈ candidates.first :: candidates.others := by
  unfold selected
  split
  · exact List.mem_cons_self
  · cases searched : (candidates.first :: candidates.others).find?
        (resolver.isOfKind wantDirectory) with
    | none => exact List.mem_cons_self
    | some entry => exact List.mem_of_find?_eq_some searched

theorem path_of_leaf {name : Identifier} {access : Access}
    (found : resolver.candidatesOf directory name = .ok candidates)
    (leaf : resolver.Leaf candidates access entry span) :
    ∃ way, way.length ≤ access.packages + 1 ∧
      (∀ name ∈ way, name ∈ resolver.workspace.tree.names) ∧
      entry.path = pathThrough directory way := by
  have selected (candidates : Candidates) {directory : String} {name : Identifier}
      (wantDirectory : Bool) (found : resolver.candidatesOf directory name = .ok candidates) :
      (resolver.selected candidates wantDirectory).rawName ∈ resolver.workspace.tree.names ∧
        (resolver.selected candidates wantDirectory).path = pathThrough directory
          [(resolver.selected candidates wantDirectory).rawName] := by
    obtain ⟨stands, known⟩ :=
      rawName_of_candidatesOf found _ (resolver.selected_mem candidates wantDirectory)
    exact ⟨known, by rw [pathThrough, pathThrough, ← stands]⟩
  induction leaf generalizing directory name with
  | star =>
    obtain ⟨known, path⟩ := selected _ false found
    exact ⟨[_], Nat.le_add_left .., by simpa using known, path⟩
  | symbol =>
    obtain ⟨known, path⟩ := selected _ false found
    exact ⟨[_], Nat.le_add_left .., by simpa using known, path⟩
  | subPackage inside _ ih =>
    obtain ⟨known, path⟩ := selected _ true found
    obtain ⟨way, short, names, onward⟩ := ih inside
    refine ⟨_ :: way, Nat.succ_le_succ short, List.forall_mem_cons.mpr ⟨known, names⟩, ?_⟩
    rw [onward, path]
    rfl
  | multiple member _ ih =>
    obtain ⟨way, short, names, path⟩ := ih found
    have fewer := packages_le_of_mem member
    refine ⟨way, Nat.le_trans short ?_, names, path⟩
    rw [Access.packages]
    exact Nat.succ_le_succ fewer

/-- The paths that imports can lead to which name at most so many packages, one inside the other. -/
def targets (resolver : Resolver) (packages : Nat) : List String :=
  match resolver.rootOf .none with
  | .error _ => []
  | .ok root => (ways resolver.workspace.tree.names packages).filterMap fun way =>
      (resolver.workspace.resolve (pathThrough root way)).toOption

theorem length_targets (resolver : Resolver) (packages : Nat) :
    (resolver.targets packages).length ≤ (resolver.workspace.tree.size + 1) ^ packages := by
  unfold targets
  split
  · exact Nat.zero_le _
  · calc _ ≤ (ways resolver.workspace.tree.names packages).length := List.length_filterMap_le ..
      _ ≤ (resolver.workspace.tree.names.length + 1) ^ packages := length_ways ..
      _ ≤ (resolver.workspace.tree.size + 1) ^ packages :=
        Nat.pow_le_pow_left (Nat.succ_le_succ (Tree.length_names _)) _

theorem rootOf_eq {root : String} (rooted : resolver.rootOf span = .ok root) (other : Span) :
    resolver.rootOf other = .ok root := by
  unfold rootOf at rooted ⊢
  split at rooted
  · exact rooted
  · exact rooted
  · cases rooted

theorem mem_targets {statements : List Import} {packages : Nat} {path : String}
    (short : ∀ statement ∈ statements, statement.package.access.packages < packages)
    (imported : resolver.Imported statements entry span)
    (resolved : resolver.workspace.resolve entry.path = .ok path) :
    path ∈ resolver.targets packages := by
  obtain ⟨statement, member, root, candidates, rooted, found, leaf⟩ := imported
  obtain ⟨way, fewer, known, same⟩ := path_of_leaf found leaf
  have within : way ∈ ways resolver.workspace.tree.names packages :=
    mem_ways (Nat.le_trans fewer (short statement member)) known
  rw [targets, rootOf_eq rooted]
  refine List.mem_filterMap.mpr ⟨way, within, ?_⟩
  rw [← same, resolved]
  rfl

end Resolver

end LeoFront

import LeoFront.Proofs.Files.Listing
import LeoFront.Proofs.Grammar.Nesting
import LeoFront.Resolution.Resolver
import Mathlib.Data.List.Fold
import Mathlib.Data.List.MinMax

namespace LeoFront

namespace Text.Utf8

theorem length_first (byte : Nat) :
    (first byte).1.length + (if (first byte).2.missing = 0 then 0 else 1) = 1 := by
  unfold first
  split
  · rfl
  split
  · rfl
  split
  · rfl
  split
  · rfl
  split <;> rfl

theorem length_step (pending : Pending) (byte : Nat) :
    (step pending byte).1.length + (if (step pending byte).2.missing = 0 then 0 else 1) ≤
      1 + if pending.missing = 0 then 0 else 1 := by
  unfold step
  by_cases idle : pending.missing = 0
  · simp only [idle, if_true, length_first]
    exact Nat.le_refl _
  simp only [idle, if_false]
  split
  · split
    · simp [Pending.idle]
    · simp only [List.length_nil]
      split <;> omega
  · have fresh := length_first byte
    simp only [List.length_cons]
    omega

theorem length_decode (bytes : List UInt8) : (decode bytes).length ≤ bytes.length := by
  have decoded (pending : Pending) : (decodeFrom pending bytes).length ≤
      bytes.length + if pending.missing = 0 then 0 else 1 := by
    induction bytes generalizing pending with
    | nil =>
      unfold decodeFrom
      split <;> simp
    | cons byte rest ih =>
      have onward := ih (step pending byte.toNat).2
      have here := length_step pending byte.toNat
      simp only [decodeFrom, List.length_append, List.length_cons]
      omega
  exact decoded .idle

theorem length_decodeLossy (bytes : List UInt8) :
    (decodeLossy bytes).toList.length ≤ bytes.length := by
  rw [decodeLossy, String.toList_ofList, List.length_map]
  exact length_decode bytes

end Text.Utf8

namespace Tree
variable {tree : Tree}

theorem get?_of_leg {directory place : NodePath} {components : List FileName} {content : List UInt8}
    (arrived : tree.leg directory components = .arrived (.file place content)) :
    tree.get? place = some (.file content) := by
  induction components generalizing directory with
  | nil => cases arrived
  | cons name rest ih =>
    rw [leg] at arrived
    split at arrived
    · exact ih arrived
    split at arrived
    · exact ih arrived
    split at arrived
    · cases arrived
    · exact ih arrived
    · rename_i found
      split at arrived <;> cases arrived
      exact found
    · cases arrived

theorem get?_of_walk {links : Nat} {directory place : NodePath} {components : List FileName}
    {content : List UInt8} (walked : tree.walk links directory components = .ok (.file place content)) :
    tree.get? place = some (.file content) := by
  induction links generalizing directory components with
  | zero =>
    unfold walk at walked
    split at walked
    · rename_i arrived
      cases walked
      exact get?_of_leg arrived
    · cases walked
    · cases walked
  | succ links ih =>
    unfold walk at walked
    split at walked
    · rename_i arrived
      cases walked
      exact get?_of_leg arrived
    · cases walked
    · exact ih walked

def nodeLength : Node → Nat
  | .file content => content.length
  | .directory | .link _ => 0

theorem longestFile_eq (tree : Tree) :
    tree.longestFile = (tree.values.map nodeLength).foldr max 0 := by
  rw [← List.foldl_eq_foldr, List.foldl_map, longestFile]
  congr 1
  funext longest node
  cases node <;> simp [nodeLength]

theorem length_le_longestFile {place : NodePath} {content : List UInt8}
    (found : tree.get? place = some (.file content)) : content.length ≤ tree.longestFile := by
  have member : content.length ∈ tree.values.map nodeLength :=
    List.mem_map_of_mem (tree.mem_values_iff.mpr ⟨place, found⟩)
  rw [longestFile_eq]
  exact List.le_max_of_le' 0 member (Nat.le_refl _)

def HasSource (tree : Tree) (file : File) : Prop :=
  ∃ place content, tree.get? place = some (.file content) ∧
    File.parse (Text.Utf8.decodeLossy content) none = .ok file

theorem packages_of_hasSource {file : File} (source : tree.HasSource file) :
    ∀ statement ∈ file.imports, statement.package.access.packages < tree.longestFile := by
  obtain ⟨place, content, found, parsed⟩ := source
  intro statement member
  calc statement.package.access.packages
      < (Text.Utf8.decodeLossy content).toList.length := File.parse_packages parsed statement member
    _ ≤ content.length := Text.Utf8.length_decodeLossy content
    _ ≤ tree.longestFile := length_le_longestFile found

def names (tree : Tree) : List FileName := tree.keys.filterMap List.getLast?

theorem length_names (tree : Tree) : tree.names.length ≤ tree.size := by
  refine Nat.le_trans (List.length_filterMap_le ..) ?_
  rw [Table.keys, List.length_map]
  exact Nat.le_refl _

theorem mem_names_of_namesIn {directory : NodePath} {name : FileName}
    (member : name ∈ tree.namesIn directory) : name ∈ tree.names := by
  obtain ⟨path, among, named⟩ := List.mem_filterMap.mp member
  refine List.mem_filterMap.mpr ⟨path, among, ?_⟩
  split at named
  · rename_i last isLast
    split at named <;> cases named
    exact isLast
  · cases named

theorem nodup_namesIn (tree : Tree) (directory : NodePath) :
    (tree.namesIn directory).Nodup := by
  apply tree.nodup.filterMap
  intro path path' name here there
  cases last : path.getLast? with
  | none => simp [last] at here
  | some final =>
    cases last' : path'.getLast? with
    | none => simp [last'] at there
    | some final' =>
      simp only [last, last', Option.mem_def, Option.ite_none_right_eq_some,
        Option.some.injEq] at here there
      obtain ⟨inside, rfl⟩ := here
      obtain ⟨inside', rfl⟩ := there
      rw [← List.dropLast_append_getLast? _ last, ← List.dropLast_append_getLast? _ last', inside,
        inside']

end Tree

theorem File.parse_name {text : String} {name : Option String} {file : File}
    (parsed : File.parse text name = .ok file) : File.parse text none = .ok file := by
  unfold File.parse File.parseChars at parsed ⊢
  dsimp only at parsed ⊢
  split at parsed
  · cases parsed
    rfl
  · cases parsed
  · cases parsed

namespace Workspace
variable {workspace : Workspace} {path : String}

theorem get?_of_locate {bytes content : List UInt8} {place : NodePath}
    (located : workspace.locate bytes = .ok (.file place content)) :
    workspace.tree.get? place = some (.file content) := by
  have arrived {walked : Except Tree.WalkError Tree.Place}
      (same : walked.mapError OsCode.ofWalkError = .ok (.file place content)) :
      walked = .ok (.file place content) := by
    cases walked with
    | error error => cases same
    | ok there =>
      cases same
      rfl
  unfold locate at located
  dsimp only at located
  replace located := arrived located
  split at located
  · cases located
  split at located
  · exact Tree.get?_of_walk located
  split at located
  · split at located
    · cases located
    · split at located
      · exact Tree.get?_of_walk located
      · cases located
  · exact Tree.get?_of_walk located

theorem parseFile_ok {file : File} (parsed : workspace.parseFile path = .ok file) :
    workspace.tree.HasSource file := by
  unfold parseFile at parsed
  split at parsed
  · cases parsed
  · rename_i text readText
    split at parsed
    · cases parsed
    · rename_i parsedText
      cases parsed
      unfold read at readText
      split at readText
      · rename_i place content located
        cases readText
        exact ⟨place, content, get?_of_locate located, File.parse_name parsedText⟩
      · cases readText
      · cases readText

theorem nodup_list {names : List FileName}
    (listed : workspace.list path = .ok names) : names.Nodup := by
  unfold list at listed
  split at listed <;> cases listed
  exact Tree.nodup_namesIn _ _

theorem rawName_of_entries {entries : List Entry} (listed : workspace.entries path = .ok entries) :
    ∀ entry ∈ entries, entry.directory = path ∧ entry.rawName ∈ workspace.tree.names := by
  unfold Workspace.entries list at listed
  intro entry member
  split at listed
  · cases listed
    obtain ⟨name, among, rfl⟩ := List.mem_map.mp member
    exact ⟨rfl, Tree.mem_names_of_namesIn ((FileName.sort_perm _).mem_iff.mp among)⟩
  · cases listed
  · cases listed

end Workspace

end LeoFront

import LeoFront.Proofs.Files.Decoding
import LeoFront.Proofs.Files.NormalForm
import LeoFront.Proofs.Lexical.Files
import LeoFront.Proofs.Resolution.Location
import LeoFront.Proofs.Resolution.Targets

namespace LeoFront
open Grammar (IsName wordStart wordPart)
open Text
open Text.Utf8 (IsAscii encode)

def extended (package : String) : (copies : Nat) → String
  | 0 => package
  | copies + 1 => extended package copies ++ sourceExtension

theorem toList_extended (package : String) (copies : Nat) : (extended package copies).toList =
    package.toList ++ (List.replicate copies sourceExtension.toList).flatten := by
  induction copies with
  | zero => simp [extended]
  | succ copies ih =>
    rw [extended, String.toList_append, ih, List.replicate_succ', List.flatten_concat,
      List.append_assoc]

def InFileName (c : Char) : Prop := wordPart.contains c = true ∨ c = '.'

theorem InFileName.isAscii {c : Char} (inside : InFileName c) : IsAscii c := by
  rcases inside with part | rfl
  · simp only [wordPart, CharClass.contains] at part
    simp [Char.le_def, UInt32.le_iff_toNat_le] at part
    unfold IsAscii
    omega
  · decide

theorem InFileName.ne_separator {c : Char} (inside : InFileName c) : c ≠ '/' := by
  rintro rfl
  rcases inside with part | same
  · exact absurd part (by decide)
  · cases same

section
variable {package : String} (isName : IsName package) (copies : Nat)
include isName

theorem inFileName_extended : ∀ c ∈ (extended package copies).toList, InFileName c := by
  have extension : ∀ c ∈ sourceExtension.toList, InFileName c := by
    unfold InFileName
    decide
  induction copies with
  | zero => exact fun c member => .inl ((Grammar.IsWord.run isName.word).2 c member)
  | succ copies ih =>
    rw [extended, String.toList_append]
    exact List.forall_mem_append.mpr ⟨ih, extension⟩

theorem isAscii_extended : ∀ c ∈ (extended package copies).toList, IsAscii c :=
  fun c member => (inFileName_extended isName copies c member).isAscii

theorem isPlain_extended : Path.IsPlain (extended package copies) := by
  have begins : ∃ first rest, (extended package copies).toList = first :: rest ∧ first ≠ '.' := by
    have word := isName.word
    rw [toList_extended]
    cases name : package.toList with
    | nil =>
      rw [name] at word
      exact word.elim
    | cons first rest =>
      rw [name] at word
      refine ⟨first, _, rfl, ?_⟩
      rintro rfl
      exact absurd word.1 (by decide)
  obtain ⟨first, rest, text, other⟩ := begins
  have apart {short : String} (dots : ∀ c ∈ short.toList.head?, c = '.') :
      extended package copies ≠ short := by
    rintro rfl
    rw [text] at dots
    exact other (dots first rfl)
  refine ⟨apart (by decide), apart (by decide), apart (by decide), fun member => ?_⟩
  exact (inFileName_extended isName copies _ member).ne_separator rfl

end

/-- All views of an entry are those of one name. -/
structure Entry.Named (entry : Entry) (name : String) : Prop where
  rawName : entry.rawName = encode name
  shown : entry.name = name
  fileName : entry.fileName = some name
  path : entry.path = entry.directory ++ name
  rawPath : entry.rawPath = encode entry.path

theorem Entry.named_of_packageName {entry : Entry} {package : String} (isName : IsName package)
    (tidy : Path.Tidy entry.directory) (belongs : entry.packageName = package) :
    ∃ copies, entry.Named (extended package copies) := by
  obtain ⟨-, copies, text⟩ := Entry.packageName_eq_iff.mp belongs
  rw [← toList_extended, String.toList_inj] at text
  have ascii : ∀ c ∈ (Utf8.decodeLossy entry.rawName).toList, IsAscii c := by
    rw [text]
    exact isAscii_extended isName copies
  have bytes : entry.rawName = encode (extended package copies) := by
    rw [Utf8.bytes_of_ascii ascii, text]
  have path : entry.path = entry.directory ++ extended package copies := by
    rw [Entry.path, Entry.name, text]
    exact tidy.join_name (isPlain_extended isName copies)
  refine ⟨copies, bytes, text, ?_, path, ?_⟩
  · rw [Entry.fileName, Utf8.decodeStrict_of_ascii ascii, text]
  · rw [Entry.rawPath, path, if_pos tidy.endsWithSeparator_eq, bytes]
    simp [encode]

theorem Access.wellFormed_of_mem {accesses : List Access} {access : Access}
    (wellFormed : Access.EachWellFormed accesses) (member : access ∈ accesses) :
    access.WellFormed := by
  induction accesses with
  | nil => cases member
  | cons first rest ih =>
    rcases List.mem_cons.mp member with rfl | among
    · exact wellFormed.1
    · exact ih wellFormed.2 among

theorem Workspace.imports_wellFormed {workspace : Workspace} {path : String} {file : File}
    (parsed : workspace.parseFile path = .ok file) :
    ∀ statement ∈ file.imports, statement.WellFormed := by
  obtain ⟨_, content, -, parsed⟩ := Workspace.parseFile_ok parsed
  exact (File.parse_sound parsed).1.imports

namespace Resolver
open Resolution
variable {resolver : Resolver} {directory : String} {name : Identifier} {candidates : Candidates}
  {access : Access} {entry : Entry} {span : Span} {statements : List Import}

theorem named_of_candidatesOf (isName : name.WellFormed)
    (found : resolver.candidatesOf directory name = .ok candidates) :
    ∀ entry ∈ candidates.first :: candidates.others,
      ∃ copies, entry.Named (extended name.name copies) := by
  obtain ⟨entries, listed, belongs⟩ := listed_of_candidatesOf found
  intro entry member
  obtain ⟨among, ofPackage⟩ := belongs entry member
  refine Entry.named_of_packageName isName ?_ ofPackage
  rw [(Workspace.rawName_of_entries listed entry among).1]
  exact Path.tidy_source directory

theorem named_of_leaf (wellFormed : access.WellFormed)
    (named : ∀ entry ∈ candidates.first :: candidates.others, ∃ name, entry.Named name)
    (leaf : resolver.Leaf candidates access entry span) : ∃ name, entry.Named name := by
  induction leaf with
  | star => exact named _ (resolver.selected_mem _ false)
  | symbol => exact named _ (resolver.selected_mem _ false)
  | subPackage found leaf ih =>
    refine ih wellFormed.2 fun entry member => ?_
    obtain ⟨copies, named⟩ := named_of_candidatesOf wellFormed.1 found entry member
    exact ⟨_, named⟩
  | multiple member leaf ih => exact ih (Access.wellFormed_of_mem wellFormed.2 member) named

theorem named_of_imported (wellFormed : ∀ statement ∈ statements, statement.WellFormed)
    (imported : resolver.Imported statements entry span) : ∃ name, entry.Named name := by
  obtain ⟨statement, member, root, candidates, -, found, leaf⟩ := imported
  refine named_of_leaf (wellFormed statement member).access (fun entry among => ?_) leaf
  obtain ⟨copies, named⟩ := named_of_candidatesOf (wellFormed statement member).name found entry among
  exact ⟨_, named⟩

theorem imports_decodes {scope : String} {active : List String} {error : ImportError}
    (wellFormed : ∀ statement ∈ statements, statement.WellFormed)
    (failed : (resolver.imports scope statements).outcome active = .error (.badImport error)) :
    error.fault ≠ .undecodableName := by
  intro undecodable
  have start : resolver.WrittenIn none statements none statements := .main
  obtain ⟨source, written, writtenIn, at_, -, faultAt⟩ := importsWithin_blames start failed
  -- The import at fault is one of these imports, or one of a file that was read on the way.
  have known : ∀ statement ∈ written, statement.WellFormed := by
    cases writtenIn with
    | main => exact wellFormed
    | file reaches imported parsed => exact Workspace.imports_wellFormed parsed
  rw [undecodable] at faultAt
  cases faultAt with
  | undecodable imported unnamed =>
    obtain ⟨name, named⟩ := named_of_imported known imported
    cases unnamed.symm.trans named.fileName

/-- The entries of a package that an import names have the package's name and extensions behind it, and
nothing else, whatever view of them is taken. So no resolution fails because a name is no text. -/
theorem resolveProgram_decodes {text : String} {sourceName : Option String} {file : File}
    (parsed : File.parse text sourceName = .ok file) (resolver : Resolver) :
    (∀ package ∈ file.names, ∀ directory session candidates after,
      resolver.candidates directory package session = .ok candidates after →
      ∀ entry ∈ candidates.first :: candidates.others,
        ∃ copies, entry.Named (extended package.name copies)) ∧
    ∀ name path session error after,
      resolver.resolveProgram (.ofFile file name) path session = .error (.badImport error) after →
      error.fault ≠ .undecodableName := by
  obtain ⟨wellFormed, whole⟩ := File.parse_sound parsed
  constructor
  · intro package member directory session candidates after run
    have found := outcome_of_ok run
    rw [outcome, account_candidates] at found
    exact named_of_candidatesOf (whole package member).isName found
  · intro name path session error after run
    obtain ⟨_, system⟩ | ⟨main, -, cycle⟩ | ⟨within, failed⟩ :=
      resolveProgram_error (outcome_of_error run)
    · cases system
    · cases cycle
      intro undecodable
      cases undecodable
    · refine imports_decodes ?_ failed
      rw [Program.imports_ofFile]
      exact wellFormed.imports

def importingText : String := "import foo.*;"

def brokenNames : Resolver :=
  let source := encode "circuit a \x7b v: u8 \x7d"
  let names := [encode "foo.leo.leo", [0x66, 0x6F, 0x6F, 0xFF], encode "foo.leo",
    encode "foo.leo" ++ [0xC0, 0xAE]]
  let sources := names.map fun name => ([encode "src", name], Node.file source)
  ⟨.ofNodes ((.ofNames ["src"], .directory) :: sources), some "/"⟩

theorem brokenNames_decodes : ∃ file, File.parse importingText none = .ok file ∧
    (brokenNames.workspace.list "/src/").toOption.map List.length = some 4 ∧
    (∃ package ∈ file.names,
      ((brokenNames.candidatesOf "/" package).toOption.map fun candidates =>
        (candidates.first :: candidates.others).map Entry.rawName) =
          some [encode "foo.leo", encode "foo.leo.leo"]) ∧
    (∀ package ∈ file.names, ∀ directory session candidates after,
      brokenNames.candidates directory package session = .ok candidates after →
      ∀ entry ∈ candidates.first :: candidates.others,
        ∃ copies, entry.Named (extended package.name copies)) ∧
    ∀ name path session error after,
      brokenNames.resolveProgram (.ofFile file name) path session = .error (.badImport error) after →
      error.fault ≠ .undecodableName := by
  have listed : (brokenNames.workspace.list "/src/").toOption.map List.length = some 4 := by
    decide +kernel
  have found : ((File.parse importingText none).toOption.map fun file =>
      file.names.any fun package =>
        ((brokenNames.candidatesOf "/" package).toOption.map fun candidates =>
          (candidates.first :: candidates.others).map Entry.rawName) =
            some [encode "foo.leo", encode "foo.leo.leo"]) = some true := by
    decide +kernel
  obtain ⟨file, parsed, found⟩ := exists_of_view found
  obtain ⟨package, member, same⟩ := List.any_eq_true.mp found
  exact ⟨file, parsed, listed, ⟨package, member, of_decide_eq_true same⟩,
    resolveProgram_decodes parsed brokenNames⟩

end Resolver

end LeoFront

import LeoFront.Proofs.Lexical.Expressions
import LeoFront.Proofs.RoundTrip.Files
import LeoFront.Proofs.Spacing.Entries

namespace LeoFront

namespace Grammar
open LeoFront.Parser
variable {source : List Char} {stand : Stand}

theorem leads_importSymbol : Leads source .boundary importSymbol
    (Sound source ImportSymbol.WellFormed ImportSymbol.names) .boundary := by
  have other : Leads source .boundary (do
      blanks
      word "as"
      blanks
      identifier) (fun name => name.Whole source) .boundary :=
    .skip leads_blanks fun _ => .skip (leads_word (readsWord_word (by decide))) fun _ =>
      .skip leads_blanks fun _ => leads_identifier
  refine .spanned (.bind leads_identifier fun symbol whole => .bind other.optional
    fun renamed known => .pure fun span => ?_)
  constructor
  · exact ⟨whole.isName, fun name same => (known name same).isName⟩
  · refine List.forall_mem_cons.mpr ⟨whole, fun name member => known name ?_⟩
    simpa using member

section
variable {access : Parser Access}
  (accesses : Leads source .boundary access (Sound source Access.WellFormed Access.names) .boundary)
include accesses

theorem leads_packageOver : Leads source .boundary (packageOver access)
    (Sound source (fun package => package.name.WellFormed ∧ package.access.WellFormed)
      Package.names) .boundary := by
  refine .spanned (.bind leads_identifier fun name whole => .skip leads_blanks fun _ => ?_)
  refine .skip (leads_literal (by decide)) fun _ => .skip leads_blanks fun _ => ?_
  refine .bind accesses fun access known => .pure fun span => ?_
  exact ⟨⟨whole.isName, known.1⟩, List.forall_mem_cons.mpr ⟨whole, known.2⟩⟩

theorem leads_accessOver : Leads source .boundary (accessOver access)
    (Sound source Access.WellFormed Access.names) .boundary := by
  refine .or (.spanned ?_) (.or (.spanned ?_) (.or ?_ (.or ?_ .fail)))
  · exact .skip (leads_literal (by decide)) fun _ => .pure fun _ => ⟨trivial, nofun⟩
  · refine .skip (leads_literal (by decide)) fun _ => .skip leads_blanks fun _ => ?_
    refine .bind (leads_separated accesses.to_anywhere) fun taken ⟨nonempty, all⟩ => ?_
    refine .skip leads_token fun _ => .skip leads_token fun _ => .skip leads_blanks fun _ => ?_
    refine .skip (leads_literal (by decide)) fun _ => .pure fun span => ?_
    have each : Sound source Access.EachWellFormed Access.namesOfEach taken :=
      sound_each all ⟨trivial, rfl⟩ fun _ _ => ⟨And.intro, rfl⟩
    exact ⟨⟨nonempty, each.1⟩, each.2⟩
  · exact .bind (leads_packageOver accesses) fun _ known => .pure known
  · exact .bind leads_importSymbol fun _ known => .pure known

end

theorem leads_access :
    Leads source .boundary access (Sound source Access.WellFormed Access.names) .boundary := by
  refine .bounded fun bound => ?_
  induction bound with
  | nil => exact .fail
  | cons _ bound ih => exact leads_accessOver ih

theorem leads_import : Leads source stand importStatement
    (Sound source Import.WellFormed fun statement => statement.package.names) .boundary := by
  refine .spanned (.skip (leads_word (readsWord_word (by decide))) fun _ => ?_)
  refine .skip leads_blanks fun _ => .bind (leads_packageOver leads_access) fun package known => ?_
  refine .skip leads_blanks fun _ => .skip (leads_literal (by decide)) fun _ => ?_
  exact .pure fun _ => ⟨⟨known.1.1, known.1.2⟩, known.2⟩

abbrev SoundStatement (source : List Char) : Statement → Prop :=
  Sound source Statement.WellFormed Statement.names

theorem leads_returnStatement :
    Leads source stand returnStatement (SoundStatement source) .boundary := by
  refine .spanned (.skip (leads_word (readsWord_word (by decide))) fun _ => ?_)
  refine .skip leads_blanks fun _ => .bind leads_expression fun value known => ?_
  refine .skip leads_blanks fun _ => .skip (leads_literal (by decide)) fun _ => ?_
  exact .pure fun _ => known

theorem leads_typeAnnotation :
    Leads source stand typeAnnotation (Sound source Ty.WellFormed Ty.names) .boundary :=
  .skip (leads_literal (by decide)) fun _ => .skip leads_blanks fun _ =>
    .bind leads_type fun _ known => .skip leads_blanks fun _ => .pure known

theorem leads_bindingStatement :
    Leads source stand bindingStatement (SoundStatement source) .boundary := by
  refine .spanned (.skip (leads_word (readsWord_oneWord (by decide))) fun kind => ?_)
  refine .skip leads_blanks fun _ => .bind leads_identifier fun name whole => ?_
  refine .skip leads_blanks fun _ => .bind leads_typeAnnotation.optional fun type typed => ?_
  refine .skip (leads_literal (by decide)) fun _ => .skip leads_blanks fun _ => ?_
  refine .bind leads_expression fun value known => .skip leads_blanks fun _ => ?_
  refine .skip (leads_literal (by decide)) fun _ => .pure fun span => ?_
  constructor
  · exact ⟨whole.isName, fun type same => (typed type same).1, known.1⟩
  · refine List.forall_mem_cons.mpr ⟨whole, List.forall_mem_append.mpr ⟨?_, known.2⟩⟩
    intro name member
    obtain ⟨type, written, among⟩ := List.mem_flatMap.mp member
    exact (typed type (by simpa using written)).2 name among

theorem leads_consoleStatement :
    Leads source stand consoleStatement (SoundStatement source) .boundary := by
  refine .spanned (.skip leads_token fun _ => .skip leads_blanks fun _ => ?_)
  refine .skip leads_token fun _ => .skip leads_blanks fun _ => ?_
  refine .skip leads_token fun function => .skip leads_blanks fun _ => ?_
  refine .skip (leads_literal (by decide)) fun _ => .skip leads_blanks fun _ => ?_
  refine .bind (leads_arguments leads_expression) fun arguments known => ?_
  refine .skip leads_blanks fun _ => .skip leads_token fun _ => .skip leads_blanks fun _ => ?_
  exact .skip (leads_literal (by decide)) fun _ => .pure fun _ => known

theorem leads_assignStatement :
    Leads source .boundary assignStatement (SoundStatement source) .boundary := by
  refine .spanned (.bind leads_expression fun target place => .skip leads_blanks fun _ => ?_)
  refine .skip (leads_symbol readsOneOf_assignOperator (by decide)) fun op => ?_
  refine .skip leads_blanks fun _ => .bind leads_expression fun value known => ?_
  refine .skip leads_blanks fun _ => .skip (leads_literal (by decide)) fun _ => ?_
  exact .pure fun _ => ⟨⟨place.1, known.1⟩, List.forall_mem_append.mpr ⟨place.2, known.2⟩⟩

theorem leads_expressionStatement :
    Leads source .boundary expressionStatement (SoundStatement source) .boundary :=
  .spanned (.bind leads_expression fun _ known => .skip leads_blanks fun _ =>
    .skip (leads_literal (by decide)) fun _ => .pure fun _ => known)

section
variable {block : Parser Block} {conditional : Parser Conditional}
  (blocks : ∀ {stand}, Leads source stand block (Sound source Block.WellFormed Block.names)
    .boundary)
  (conditionals : ∀ {stand}, Leads source stand conditional
    (Sound source Conditional.WellFormed Conditional.names) .boundary)
include blocks

theorem leads_loopStatement :
    Leads source stand (loopStatement block) (SoundStatement source) .boundary := by
  refine .spanned (.skip (leads_word (readsWord_word (by decide))) fun _ => ?_)
  refine .skip leads_blanks fun _ => .bind leads_identifier fun name whole => ?_
  refine .skip leads_blanks fun _ => .skip (leads_literal (by decide)) fun _ => ?_
  refine .skip leads_blanks fun _ => .bind leads_type fun type typed => ?_
  refine .skip leads_blanks fun _ => .skip (leads_word (readsWord_word (by decide))) fun _ => ?_
  refine .skip leads_blanks fun _ => .bind leads_expression fun first start => ?_
  refine .skip leads_blanks fun _ => .skip (leads_literal (by decide)) fun _ => ?_
  refine .skip leads_blanks fun _ => .bind leads_expression fun last stop => ?_
  refine .skip leads_blanks fun _ => .bind blocks fun body known => .pure fun span => ?_
  constructor
  · exact ⟨⟨whole.isName, typed.1, start.1, stop.1⟩, known.1⟩
  · exact List.forall_mem_append.mpr ⟨List.forall_mem_cons.mpr ⟨whole,
      List.forall_mem_append.mpr ⟨typed.2, List.forall_mem_append.mpr ⟨start.2, stop.2⟩⟩⟩, known.2⟩

include conditionals

theorem leads_statementOver : Leads source .boundary (statementOver block conditional)
    (SoundStatement source) .boundary := by
  refine .or leads_returnStatement (.or leads_bindingStatement (.or ?_
    (.or (leads_loopStatement blocks) (.or leads_consoleStatement (.or ?_
    (.or leads_assignStatement (.or leads_expressionStatement .fail)))))))
  · exact .bind conditionals fun _ known => .pure known
  · exact .bind blocks fun _ known => .pure known

theorem leads_blockOver : Leads source stand (blockOver (statementOver block conditional))
    (Sound source Block.WellFormed Block.names) .boundary := by
  have each : Leads source .boundary (do
      let statement ← statementOver block conditional
      blanks
      return statement) (SoundStatement source) .boundary :=
    .bind (leads_statementOver blocks conditionals) fun _ known =>
      .skip leads_blanks fun _ => .pure known
  refine .spanned (.skip (leads_literal (by decide)) fun _ => .skip leads_blanks fun _ => ?_)
  refine .bind each.many fun statements all => ?_
  refine .skip (leads_literal (by decide)) fun _ => .pure fun span => ?_
  have known : Sound source Statement.EachWellFormed Statement.namesOfEach statements :=
    sound_each all ⟨trivial, rfl⟩ fun _ _ => ⟨And.intro, rfl⟩
  exact known

theorem leads_otherwiseOver : Leads source stand (otherwiseOver block conditional)
    (Sound source Otherwise.WellFormed Otherwise.names) .boundary := by
  refine .skip leads_blanks fun _ => .skip (leads_word (readsWord_word (by decide))) fun _ =>
    .skip leads_blanks fun _ => .or ?_ (.or ?_ .fail)
  · exact .bind conditionals fun _ known => .pure known
  · exact .bind blocks fun _ known => .pure known

theorem leads_conditionalOver : Leads source stand (conditionalOver block conditional)
    (Sound source Conditional.WellFormed Conditional.names) .boundary := by
  refine .spanned (.skip (leads_word (readsWord_word (by decide))) fun _ => ?_)
  refine .skip leads_blanks fun _ => .bind leads_expression fun condition tested => ?_
  refine .skip leads_blanks fun _ => .bind blocks fun body known => ?_
  refine .bind (leads_otherwiseOver blocks conditionals).optional fun otherwise rest => ?_
  refine .pure fun span => ?_
  have last : Sound source Otherwise.WellFormed Otherwise.names (otherwise.getD .nothing) := by
    cases otherwise with
    | none => exact ⟨trivial, nofun⟩
    | some otherwise => exact rest otherwise rfl
  exact ⟨⟨tested.1, known.1, last.1⟩, List.forall_mem_append.mpr ⟨tested.2,
    List.forall_mem_append.mpr ⟨known.2, last.2⟩⟩⟩

end

theorem leads_nested (bound : List Char) (stand : Stand) :
    Leads source stand (blockWithin bound) (Sound source Block.WellFormed Block.names) .boundary ∧
      Leads source stand (conditionalWithin bound)
        (Sound source Conditional.WellFormed Conditional.names) .boundary := by
  induction bound generalizing stand with
  | nil => exact ⟨.fail, .fail⟩
  | cons _ bound ih =>
    rw [blockWithin, conditionalWithin]
    exact ⟨leads_blockOver (ih _).1 (ih _).2, leads_conditionalOver (ih _).1 (ih _).2⟩

theorem leads_block :
    Leads source stand block (Sound source Block.WellFormed Block.names) .boundary :=
  .bounded fun bound => (leads_nested bound stand).1

theorem leads_member :
    Leads source .boundary member (Sound source Member.WellFormed Member.names) .boundary := by
  refine .bind leads_identifier fun name whole => .skip leads_blanks fun _ => ?_
  refine .skip (leads_literal (by decide)) fun _ => .skip leads_blanks fun _ => ?_
  refine .bind leads_type fun type typed => .pure ?_
  exact ⟨⟨whole.isName, typed.1⟩, List.forall_mem_cons.mpr ⟨whole, typed.2⟩⟩

theorem names_flatMap {α : Type} {wellFormed : α → Prop} {names : α → List Identifier}
    {values : List α} (all : ∀ value ∈ values, Sound source wellFormed names value) :
    ∀ name ∈ values.flatMap names, name.Whole source := by
  intro name member
  obtain ⟨value, among, named⟩ := List.mem_flatMap.mp member
  exact (all value among).2 name named

theorem leads_circuit :
    Leads source stand circuit (Sound source Circuit.WellFormed Circuit.names) .boundary := by
  refine .spanned (.skip (leads_word (readsWord_oneWord (by decide))) fun keyword => ?_)
  refine .skip leads_blanks fun _ => .bind leads_identifier fun name whole => ?_
  refine .skip leads_blanks fun _ => .skip (leads_literal (by decide)) fun _ => ?_
  refine .skip leads_blanks fun _ => ?_
  refine .bind (leads_possiblyEmpty (leads_separatedTrailing leads_member.to_anywhere))
    fun members all => ?_
  refine .skip leads_blanks fun _ => .skip (leads_literal (by decide)) fun _ => ?_
  refine .pure fun span => ⟨⟨whole.isName, fun member among => (all member among).1⟩, ?_⟩
  exact List.forall_mem_cons.mpr ⟨whole, names_flatMap all⟩

theorem leads_input :
    Leads source .boundary input (Sound source Input.WellFormed Input.names) .boundary := by
  have modes : Leads source .boundary (optional do
      let mode ← mode
      blanks
      return mode) (fun _ => True) .boundary :=
    .imp (.optional (.skip (leads_word (readsWord_oneWord (by decide))) fun _ =>
      .skip leads_blanks fun _ => .pure trivial)) fun _ _ => trivial
  refine .spanned (.skip modes fun mode => .bind leads_identifier fun name whole => ?_)
  refine .skip leads_blanks fun _ => .skip (leads_literal (by decide)) fun _ => ?_
  refine .skip leads_blanks fun _ => .bind leads_type fun type typed => .pure fun span => ?_
  exact ⟨⟨whole.isName, typed.1⟩, List.forall_mem_cons.mpr ⟨whole, typed.2⟩⟩

theorem leads_output :
    Leads source stand output (Sound source Ty.WellFormed Ty.names) .boundary :=
  .skip (leads_literal (by decide)) fun _ => .skip leads_blanks fun _ =>
    .bind leads_type fun _ known => .skip leads_blanks fun _ => .pure known

theorem leads_function : Leads source stand function
    (Sound source FunctionDecl.WellFormed FunctionDecl.names) .boundary := by
  refine .spanned (.skip (leads_word (readsWord_word (by decide))) fun _ => ?_)
  refine .skip leads_blanks fun _ => .bind leads_identifier fun name whole => ?_
  refine .skip leads_blanks fun _ => .skip (leads_literal (by decide)) fun _ => ?_
  refine .skip leads_blanks fun _ => ?_
  refine .bind (leads_possiblyEmpty (leads_separatedTrailing leads_input.to_anywhere))
    fun inputs all => ?_
  refine .skip leads_blanks fun _ => .skip (leads_literal (by decide)) fun _ => ?_
  refine .skip leads_blanks fun _ => .bind leads_output.optional fun output typed => ?_
  refine .bind leads_block fun body known => .pure fun span => ?_
  constructor
  · exact ⟨whole.isName, fun input among => (all input among).1,
      fun type same => (typed type same).1, known.1⟩
  · have outputs : ∀ type ∈ output.toList, Sound source Ty.WellFormed Ty.names type :=
      fun type member => typed type (by simpa using member)
    exact List.forall_mem_cons.mpr ⟨whole, List.forall_mem_append.mpr ⟨names_flatMap all,
      List.forall_mem_append.mpr ⟨names_flatMap outputs, known.2⟩⟩⟩

def Item.WellFormed : Item → Prop
  | .statement imported => imported.WellFormed
  | .declaration declared => declared.WellFormed

def Item.names : Item → List Identifier
  | .statement imported => imported.package.names
  | .declaration declared => declared.names

theorem leads_item :
    Leads source stand item (Sound source Item.WellFormed Item.names) .boundary := by
  refine .or ?_ (.or ?_ (.or ?_ .fail))
  · exact .bind leads_import fun _ known => .pure known
  · exact .bind leads_circuit fun _ known => .pure known
  · exact .bind leads_function fun _ known => .pure known

theorem leads_file :
    Leads source .boundary file (Sound source File.WellFormed File.names) .boundary := by
  have each : Leads source .boundary (do
      let item ← item
      blanks
      return item) (Sound source Item.WellFormed Item.names) .boundary :=
    .bind leads_item fun _ known => .skip leads_blanks fun _ => .pure known
  refine .spanned (.skip leads_blanks fun _ => .bind each.many fun items all => .pure fun span => ?_)
  have imported : ∀ statement ∈ items.filterMap Item.statement?,
      Sound source Import.WellFormed (fun statement => statement.package.names) statement := by
    intro statement member
    obtain ⟨item, among, same⟩ := List.mem_filterMap.mp member
    cases item with
    | statement imported =>
      cases same
      exact all _ among
    | declaration declared => cases same
  have declared : ∀ declaration ∈ items.filterMap Item.declaration?,
      Sound source Declaration.WellFormed Declaration.names declaration := by
    intro declaration member
    obtain ⟨item, among, same⟩ := List.mem_filterMap.mp member
    cases item with
    | statement imported => cases same
    | declaration declared =>
      cases same
      exact all _ among
  constructor
  · exact ⟨fun statement member => (imported statement member).1,
      fun declaration member => (declared declaration member).1⟩
  · exact List.forall_mem_append.mpr ⟨names_flatMap imported, names_flatMap declared⟩

end Grammar

theorem File.parse_sound {text : String} {sourceName : Option String} {file : File}
    (parsed : File.parse text sourceName = .ok file) :
    Sound text.toList File.WellFormed File.names file := by
  obtain ⟨after, read, -⟩ := File.parseChars_ok_iff.mp parsed
  exact (Grammar.leads_file _ _ _ (.ofSource text.toList) read).1

/-- In a file that was read, every identifier is a name and a whole word of the source, every variable
is none that an address begins with, every named type none that is spelled like a primitive, every type
is known, every literal fits its type, and no list of accesses is empty. So the file, printed in any
way, is read as the same tree. -/
theorem File.parse_lexical {text : String} {sourceName : Option String} {file : File}
    (parsed : File.parse text sourceName = .ok file) :
    (∀ name ∈ file.names, name.Whole text.toList) ∧ file.WellFormed ∧
    ∀ extra sourceName', ∃ again, File.parse (file.print extra) sourceName' = .ok again ∧
      again.erase = file.erase := by
  obtain ⟨after, read, -⟩ := File.parseChars_ok_iff.mp parsed
  obtain ⟨⟨wellFormed, whole⟩, -⟩ := Grammar.leads_file _ _ _ (.ofSource text.toList) read
  refine ⟨whole, wellFormed, fun extra sourceName' => ?_⟩
  obtain ⟨again, position, reread, same⟩ := Grammar.accepts_file extra wellFormed .start
  refine ⟨again, File.parseChars_ok_iff.mpr ⟨⟨[], position⟩, ?_, rfl⟩, same⟩
  rw [File.print, String.toList_ofList]
  exact reread

def nearlyReserved : String :=
  "import a.(returns as u8x);function f(aleo1_:fields)->u8/**/\x7blet/**/lets=\"x\";" ++
    "return/**/aleo1_.letx(aleo1x,true);//\n\x7d"

theorem nearlyReserved_lexical :
    ∃ file, File.parse nearlyReserved none = .ok file ∧
      file.names.map (·.name) =
        ["a", "returns", "u8x", "f", "aleo1_", "fields", "lets", "aleo1_", "letx"] ∧
      (∀ name ∈ file.names, name.Whole nearlyReserved.toList) ∧ file.WellFormed ∧
      ∀ extra sourceName', ∃ again, File.parse (file.print extra) sourceName' = .ok again ∧
        again.erase = file.erase := by
  have names : (File.parse nearlyReserved none).toOption.map (·.names.map (·.name)) =
      some ["a", "returns", "u8x", "f", "aleo1_", "fields", "lets", "aleo1_", "letx"] := by
    decide +kernel
  obtain ⟨file, parsed, names⟩ := exists_of_view names
  exact ⟨file, parsed, names, File.parse_lexical parsed⟩

end LeoFront
